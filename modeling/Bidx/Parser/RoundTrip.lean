import Bidx.Parser.Wire
import Mathlib.Data.List.Basic
import Mathlib.Tactic.IntervalCases

/-!
# The parser inverts the serializer

For every list of transactions within the parser's limits, `parseBlockFull` on
the canonical block payload returns exactly the rows of `WireTx.rows`.

The proof follows the four nested loops from the inside out.  Each loop has one
lemma of the same form as the cursor reads: where the unread bytes start with
the encoding of a list, the loop returns the rows of that list and stops after
the encoding.  The segwit marker is read as the first byte of the input count,
so the legacy case needs that a non-zero count never encodes to a leading zero.
-/

namespace Bidx

open LittleEndian

variable {D : Digests}

@[simp] theorem ok_bind {ε α β : Type} (a : α) (f : α → Except ε β) :
    (Except.ok a >>= f) = f a := rfl

@[simp] theorem pure_eq_ok {ε α : Type} (a : α) : (pure a : Except ε α) = Except.ok a := rfl

@[simp] theorem liftCursor_ok {α : Type} (a : α) : liftCursor (Except.ok a) = Except.ok a := rfl

/-! ## CompactSize -/

/-- The four varint classes: the count comes back and exactly its bytes are
consumed. -/
theorem Cursor.readVarint_ok {c : Cursor} {n : Nat} {tail : List UInt8} (hn : n < 2 ^ 64)
    (h : c.rest = compactSize n ++ tail) :
    c.readVarint = .ok (UInt64.ofNat n, c.after (compactSize n)) := by
  unfold compactSize at h ⊢
  split_ifs at h ⊢ with h1 h2 h3
  · have hfirst : c.rest = UInt8.ofNat n :: tail := h
    have hle : UInt8.ofNat n ≤ 0xfc := by
      rw [UInt8.le_iff_toNat_le, UInt8.toNat_ofNat']
      change n % 2 ^ 8 ≤ 252
      omega
    have hval : (UInt8.ofNat n).toUInt64 = UInt64.ofNat n := by
      apply UInt64.toNat_inj.mp
      rw [UInt8.toNat_toUInt64, UInt8.toNat_ofNat', UInt64.toNat_ofNat']
      omega
    simp only [readVarint, readU8_ok hfirst, ok_bind, if_pos hle, hval, pure_eq_ok]
  · have hfirst : c.rest = [0xfd] ++ (toBytes 2 n ++ tail) := h
    have hread := readU8_ok hfirst
    have hword := readU16_ok (rest_after hfirst)
    have hval : (UInt16.ofNat n).toUInt64 = UInt64.ofNat n := by
      apply UInt64.toNat_inj.mp
      rw [UInt16.toNat_toUInt64, UInt16.toNat_ofNat', UInt64.toNat_ofNat']
      omega
    simp only [readVarint, hread, ok_bind, hword, hval, pure_eq_ok, after_after,
      List.singleton_append]
    rfl
  · have hfirst : c.rest = [0xfe] ++ (toBytes 4 n ++ tail) := h
    have hread := readU8_ok hfirst
    have hn32 : (UInt32.ofNat n).toNat = n := UInt32.toNat_ofNat_of_lt' (by
      change n < 2 ^ 32
      omega)
    have hrest := rest_after hfirst
    rw [← hn32] at hrest
    have hword := readU32_ok hrest
    have hval : (UInt32.ofNat n).toUInt64 = UInt64.ofNat n := by
      apply UInt64.toNat_inj.mp
      rw [UInt32.toNat_toUInt64, hn32, UInt64.toNat_ofNat']
      omega
    rw [hn32] at hword
    simp only [readVarint, hread, ok_bind, hword, hval, pure_eq_ok, after_after,
      List.singleton_append]
    rfl
  · have hfirst : c.rest = [0xff] ++ (toBytes 8 n ++ tail) := h
    have hread := readU8_ok hfirst
    have hn64 : (UInt64.ofNat n).toNat = n := UInt64.toNat_ofNat_of_lt' hn
    have hrest := rest_after hfirst
    rw [← hn64] at hrest
    have hword := readU64_ok hrest
    rw [hn64] at hword
    simp only [readVarint, hread, ok_bind, hword, pure_eq_ok, after_after,
      List.singleton_append]
    rfl

theorem Cursor.readCount_ok {c : Cursor} {n : Nat} {tail : List UInt8} (hn : n ≤ maxItems)
    (h : c.rest = compactSize n ++ tail) :
    c.readCount = .ok (UInt64.ofNat n, c.after (compactSize n)) := by
  have hn64 : n < 2 ^ 64 := hn.trans_lt (by norm_num [maxItems])
  have hle : ¬maxItems < (UInt64.ofNat n).toNat := by
    rw [UInt64.toNat_ofNat_of_lt' hn64]
    omega
  simp only [readCount, readVarint_ok hn64 h, ok_bind, if_neg hle, pure_eq_ok]

/-- A count below the limit survives the `as u32` cast of the loops. -/
theorem toUInt32_count {n : Nat} (hn : n ≤ Cursor.maxItems) :
    (UInt32.ofNat n).toNat = n :=
  UInt32.toNat_ofNat_of_lt' (hn.trans_lt (by norm_num [Cursor.maxItems, UInt32.size]))

theorem toNat_count {n : Nat} (hn : n ≤ Cursor.maxItems) : (UInt64.ofNat n).toNat = n :=
  UInt64.toNat_ofNat_of_lt' (hn.trans_lt (by norm_num [Cursor.maxItems, UInt64.size]))

/-- Casting a `u64` count down is casting the number down. -/
theorem toUInt32_ofNat (n : Nat) : (UInt64.ofNat n).toUInt32 = UInt32.ofNat n := by
  apply UInt32.toNat_inj.mp
  rw [UInt64.toNat_toUInt32, UInt64.toNat_ofNat', UInt32.toNat_ofNat']
  omega

theorem ofNat_succ_u32 (n : Nat) : UInt32.ofNat n + 1 = UInt32.ofNat (n + 1) := by
  apply UInt32.toNat_inj.mp
  rw [UInt32.toNat_add, UInt32.toNat_ofNat', UInt32.toNat_ofNat', UInt32.toNat_one]
  omega

/-! ## The input loop -/

/-- The input row before the txid and the witness are known. -/
def bareInputRow (height txIndex : UInt32) (single : Bool) (j : Nat) (i : WireInput) : InputRow where
  height
  txIndex
  inputIndex := UInt32.ofNat j
  txid := zeroBytes 32
  prevTxid := i.prevTxid
  prevVout := i.prevVout
  scriptSigLen := UInt32.ofNat i.scriptSig.length
  sequence := i.sequence
  witnessItems := 0
  witnessBytes := 0
  isCoinbase := single && UInt32.ofNat j == 0 && decide (i.prevTxid = zeroBytes 32) &&
    i.prevVout == 0xFFFFFFFF

theorem parseInputs_ok (height txIndex : UInt32) (single : Bool) (ins : List WireInput)
    (hlen : ∀ i ∈ ins, i.scriptSig.length ≤ Cursor.maxItems) (start : Nat) {c : Cursor}
    {tail : List UInt8} (h : c.rest = (ins.map WireInput.bytes).flatten ++ tail) :
    parseInputs height txIndex single ins.length (UInt32.ofNat start) c =
      .ok (ins.mapIdx fun j => bareInputRow height txIndex single (start + j),
        c.after (ins.map WireInput.bytes).flatten) := by
  induction ins generalizing start c with
  | nil => rfl
  | cons i ins ih =>
      have hscript : i.scriptSig.length ≤ Cursor.maxItems := hlen i List.mem_cons_self
      have h0 : c.rest = i.prevTxid.toList ++ (toBytes 4 i.prevVout.toNat ++
          (compactSize i.scriptSig.length ++ (i.scriptSig ++ (toBytes 4 i.sequence.toNat ++
            ((ins.map WireInput.bytes).flatten ++ tail))))) := by
        simpa [WireInput.bytes, varBytes, List.append_assoc] using h
      have h1 := Cursor.rest_after h0
      have h2 := Cursor.rest_after h1
      have h3 := Cursor.rest_after h2
      have h4 := Cursor.rest_after h3
      have h5 := Cursor.rest_after h4
      have hrec := ih (fun k hk => hlen k (List.mem_cons_of_mem _ hk)) (start + 1) h5
      simp only [List.length_cons, parseInputs, Cursor.readArray_ok h0, Cursor.readU32_ok h1,
        Cursor.readCount_ok hscript h2, toNat_count hscript, Cursor.skip_ok h3,
        Cursor.readU32_ok h4, liftCursor_ok, ok_bind, ofNat_succ_u32, hrec, pure_eq_ok,
        toUInt32_ofNat]
      simp only [Cursor.after_after, List.map_cons, List.flatten_cons, WireInput.bytes, varBytes, List.append_assoc,
        List.mapIdx_cons, Nat.add_zero, Nat.add_right_comm start 1]
      rfl

/-! ## The output loop -/

/-- The output row before the txid is known. -/
def bareOutputRow (D : Digests) (height txIndex : UInt32) (j : Nat) (o : WireOutput) :
    OutputRow where
  height
  txIndex
  outputIndex := UInt32.ofNat j
  txid := zeroBytes 32
  valueSat := o.value
  scriptPubkeyLen := UInt32.ofNat o.scriptPubkey.length
  scriptType := (classifyScript D o.scriptPubkey).1.code
  addressHash := (classifyScript D o.scriptPubkey).2

theorem parseOutputs_ok (height txIndex : UInt32) (outs : List WireOutput)
    (hlen : ∀ o ∈ outs, o.scriptPubkey.length ≤ Cursor.maxItems)
    (hvalue : ∀ o ∈ outs, o.value.toNat ≤ maxMoney) (start : Nat) {c : Cursor}
    {tail : List UInt8} (h : c.rest = (outs.map WireOutput.bytes).flatten ++ tail) :
    parseOutputs D height txIndex outs.length (UInt32.ofNat start) c =
      .ok (outs.mapIdx fun j => bareOutputRow D height txIndex (start + j),
        c.after (outs.map WireOutput.bytes).flatten) := by
  induction outs generalizing start c with
  | nil => rfl
  | cons o outs ih =>
      have hscript : o.scriptPubkey.length ≤ Cursor.maxItems := hlen o List.mem_cons_self
      have hmoney : ¬maxMoney < o.value.toNat := by
        have := hvalue o List.mem_cons_self
        omega
      have h0 : c.rest = toBytes 8 o.value.toNat ++ (compactSize o.scriptPubkey.length ++
          (o.scriptPubkey ++ ((outs.map WireOutput.bytes).flatten ++ tail))) := by
        simpa [WireOutput.bytes, varBytes, List.append_assoc] using h
      have h1 := Cursor.rest_after h0
      have h2 := Cursor.rest_after h1
      have h3 := Cursor.rest_after h2
      have hrec := ih (fun k hk => hlen k (List.mem_cons_of_mem _ hk))
        (fun k hk => hvalue k (List.mem_cons_of_mem _ hk)) (start + 1) h3
      simp only [List.length_cons, parseOutputs, Cursor.readU64_ok h0, if_neg hmoney,
        Cursor.readCount_ok hscript h1, toNat_count hscript, Cursor.readBytes_ok h2,
        liftCursor_ok, ok_bind, ofNat_succ_u32, hrec, pure_eq_ok, toUInt32_ofNat]
      simp only [Cursor.after_after, List.map_cons, List.flatten_cons, WireOutput.bytes, varBytes, List.append_assoc,
        List.mapIdx_cons, Nat.add_zero, Nat.add_right_comm start 1]
      rfl

/-! ## The witness loops -/

theorem readWitnessItems_ok (stack : List (List UInt8))
    (hlen : ∀ item ∈ stack, item.length ≤ Cursor.maxItems) (acc : UInt32) {c : Cursor}
    {tail : List UInt8} (h : c.rest = (stack.map varBytes).flatten ++ tail) :
    readWitnessItems stack.length acc c =
      .ok (acc + UInt32.ofNat (stack.map List.length).sum,
        c.after (stack.map varBytes).flatten) := by
  induction stack generalizing acc c with
  | nil =>
      change Except.ok (acc, c) = Except.ok (acc + UInt32.ofNat 0, c.after [])
      simp [Cursor.after_nil]
  | cons item stack ih =>
      have hitem : item.length ≤ Cursor.maxItems := hlen item List.mem_cons_self
      have h0 : c.rest = compactSize item.length ++ (item ++
          ((stack.map varBytes).flatten ++ tail)) := by
        simpa [varBytes, List.append_assoc] using h
      have h1 := Cursor.rest_after h0
      have h2 := Cursor.rest_after h1
      have hrec := ih (fun k hk => hlen k (List.mem_cons_of_mem _ hk))
        (acc + UInt32.ofNat item.length) h2
      have hsum : acc + UInt32.ofNat item.length + UInt32.ofNat (stack.map List.length).sum =
          acc + UInt32.ofNat (item.length + (stack.map List.length).sum) := by
        rw [UInt32.ofNat_add, UInt32.add_assoc]
      simp only [List.length_cons, readWitnessItems, Cursor.readCount_ok hitem h0,
        toNat_count hitem, Cursor.skip_ok h1, liftCursor_ok, ok_bind, toUInt32_ofNat, hrec, hsum]
      simp [Cursor.after_after, varBytes, List.append_assoc]

/-- A row with its witness fields set from a stack. -/
def withWitness (row : InputRow) (stack : List (List UInt8)) : InputRow :=
  { row with
    witnessItems := UInt32.ofNat stack.length
    witnessBytes := row.witnessBytes + UInt32.ofNat (stack.map List.length).sum }

theorem readWitnesses_ok (rows : List InputRow) (witnesses : List (List (List UInt8)))
    (hrows : witnesses.length = rows.length)
    (hstack : ∀ s ∈ witnesses, s.length ≤ Cursor.maxItems)
    (hitem : ∀ s ∈ witnesses, ∀ item ∈ s, item.length ≤ Cursor.maxItems) {c : Cursor}
    {tail : List UInt8} (h : c.rest = (witnesses.map stackBytes).flatten ++ tail) :
    readWitnesses rows c =
      .ok (List.zipWith withWitness rows witnesses,
        c.after (witnesses.map stackBytes).flatten) := by
  induction rows generalizing witnesses c with
  | nil =>
      obtain rfl : witnesses = [] := List.length_eq_zero_iff.mp hrows
      rfl
  | cons row rows ih =>
      cases witnesses with
      | nil => simp at hrows
      | cons s witnesses =>
          have hcount : s.length ≤ Cursor.maxItems := hstack s List.mem_cons_self
          have h0 : c.rest = compactSize s.length ++ ((s.map varBytes).flatten ++
              ((witnesses.map stackBytes).flatten ++ tail)) := by
            simpa [stackBytes, List.append_assoc] using h
          have h1 := Cursor.rest_after h0
          have h2 := Cursor.rest_after h1
          have hitems := readWitnessItems_ok s (hitem s List.mem_cons_self) row.witnessBytes h1
          have hrec := ih witnesses (by simpa using hrows)
            (fun k hk => hstack k (List.mem_cons_of_mem _ hk))
            (fun k hk => hitem k (List.mem_cons_of_mem _ hk)) h2
          simp only [readWitnesses, Cursor.readCount_ok hcount h0, toNat_count hcount, hitems,
            hrec, liftCursor_ok, ok_bind, pure_eq_ok, toUInt32_ofNat]
          simp [Cursor.after_after, withWitness, stackBytes, List.append_assoc]

/-! ## One transaction -/

/-- A legacy transaction's first count byte is read as the marker.  It is not
zero, and the count it begins comes out whole. -/
theorem readInputCount_legacy {c : Cursor} {n : Nat} {tail : List UInt8} (txIndex : UInt32)
    (hpos : n ≠ 0) (hn : n ≤ Cursor.maxItems) (h : c.rest = compactSize n ++ tail) :
    ∃ marker c', c.readU8 = .ok (marker, c') ∧ marker ≠ 0x00 ∧
      readInputCount marker txIndex c' = .ok (UInt64.ofNat n, c.after (compactSize n)) := by
  have hn64 : n < 2 ^ 32 := hn.trans_lt (by norm_num [Cursor.maxItems])
  unfold compactSize at h ⊢
  split_ifs at h ⊢ with h1 h2 h3
  · have hfirst : c.rest = UInt8.ofNat n :: tail := h
    have hbyte : (UInt8.ofNat n).toNat = n := by
      rw [UInt8.toNat_ofNat']
      omega
    have hne : UInt8.ofNat n ≠ 0x00 := by
      intro h0
      rw [h0] at hbyte
      exact hpos hbyte.symm
    have hle : UInt8.ofNat n ≤ 0xfc := by
      rw [UInt8.le_iff_toNat_le, hbyte]
      exact h1
    have hval : (UInt8.ofNat n).toUInt64 = UInt64.ofNat n := by
      apply UInt64.toNat_inj.mp
      rw [UInt8.toNat_toUInt64, hbyte, UInt64.toNat_ofNat']
      omega
    refine ⟨_, _, Cursor.readU8_ok hfirst, hne, ?_⟩
    simp only [readInputCount, if_neg hne, if_pos hle, hval, pure_eq_ok]
  · have hfirst : c.rest = [0xfd] ++ (toBytes 2 n ++ tail) := h
    have hword := Cursor.readU16_ok (Cursor.rest_after hfirst)
    have hval : (UInt16.ofNat n).toUInt64 = UInt64.ofNat n := by
      apply UInt64.toNat_inj.mp
      rw [UInt16.toNat_toUInt64, UInt16.toNat_ofNat', UInt64.toNat_ofNat']
      omega
    refine ⟨_, _, Cursor.readU8_ok hfirst, by decide, ?_⟩
    simp only [readInputCount, hword, liftCursor_ok, ok_bind, hval, pure_eq_ok,
      Cursor.after_after, List.singleton_append]
    rfl
  · have hfirst : c.rest = [0xfe] ++ (toBytes 4 n ++ tail) := h
    have hn32 : (UInt32.ofNat n).toNat = n := UInt32.toNat_ofNat_of_lt' hn64
    have hrest := Cursor.rest_after hfirst
    rw [← hn32] at hrest
    have hword := Cursor.readU32_ok hrest
    have hval : (UInt32.ofNat n).toUInt64 = UInt64.ofNat n := by
      apply UInt64.toNat_inj.mp
      rw [UInt32.toNat_toUInt64, hn32, UInt64.toNat_ofNat']
      omega
    rw [hn32] at hword
    refine ⟨_, _, Cursor.readU8_ok hfirst, by decide, ?_⟩
    simp only [readInputCount, hword, liftCursor_ok, ok_bind, hval, pure_eq_ok,
      Cursor.after_after, List.singleton_append]
    rfl
  · omega

/-- Behind a segwit marker the flag and a fresh count are read. -/
theorem readInputCount_segwit {c : Cursor} {n : Nat} {flag : UInt8} {tail : List UInt8}
    (txIndex : UInt32) (hflag : flag ≠ 0) (hn : n ≤ Cursor.maxItems)
    (h : c.rest = [flag] ++ (compactSize n ++ tail)) :
    readInputCount 0x00 txIndex c =
      .ok (UInt64.ofNat n, c.after ([flag] ++ compactSize n)) := by
  have hcount := Cursor.readCount_ok hn (Cursor.rest_after h)
  simp only [readInputCount, Cursor.readU8_ok h, liftCursor_ok, ok_bind, if_neg hflag, hcount,
    Cursor.after_after]
  rfl

/-- The bytes between two cursor positions. -/
theorem slice_rest {c : Cursor} {bs tail : List UInt8} (h : c.rest = bs ++ tail) :
    slice c.data c.pos (c.pos + bs.length) = bs := by
  change (c.rest).take (c.pos + bs.length - c.pos) = bs
  rw [Nat.add_sub_cancel_left, h, List.take_left]

/-- The coinbase test of the loop is the coinbase test of the transaction. -/
theorem coinbase_flag (tx : WireTx) (hn : tx.inputs.length ≤ Cursor.maxItems) {j : Nat}
    (hj : j < tx.inputs.length) (i : WireInput) :
    (decide (UInt64.ofNat tx.inputs.length = 1) && UInt32.ofNat j == 0 &&
      decide (i.prevTxid = zeroBytes 32) && i.prevVout == 0xFFFFFFFF) =
      decide (tx.IsCoinbaseInput i) := by
  have hone : UInt64.ofNat tx.inputs.length = 1 ↔ tx.inputs.length = 1 := by
    rw [← UInt64.toNat_inj, toNat_count hn]
    rfl
  by_cases h1 : tx.inputs.length = 1
  · obtain rfl : j = 0 := by omega
    simp [h1, WireTx.IsCoinbaseInput, Bool.decide_and]
    rfl
  · simp [hone, h1, WireTx.IsCoinbaseInput]

/-- Filling in the txid turns the bare input rows of a legacy transaction into
its rows. -/
theorem inputs_legacy (tx : WireTx) (hn : tx.inputs.length ≤ Cursor.maxItems)
    (hw : tx.witness = none) (height : UInt32) (index : Nat) :
    ((tx.inputs.mapIdx fun j => bareInputRow height (UInt32.ofNat index)
      (decide (UInt64.ofNat tx.inputs.length = 1)) (0 + j)).map
        fun inp => { inp with txid := tx.txid D }) =
      tx.inputs.mapIdx (tx.inputRow D height index) := by
  apply List.ext_getElem
  · simp
  · intro j h₁ h₂
    have hj : j < tx.inputs.length := by simpa using h₂
    simp only [List.getElem_map, List.getElem_mapIdx, Nat.zero_add, bareInputRow,
      WireTx.inputRow, coinbase_flag tx hn hj, WireTx.stack, hw, List.length_nil, List.map_nil,
      List.sum_nil]
    rfl

/-- The same for a segwit transaction, after the witness loop. -/
theorem inputs_segwit (tx : WireTx) (hn : tx.inputs.length ≤ Cursor.maxItems) {w : WireWitness}
    (hw : tx.witness = some w) (hlen : w.witnesses.length = tx.inputs.length) (height : UInt32)
    (index : Nat) :
    ((List.zipWith withWitness (tx.inputs.mapIdx fun j => bareInputRow height (UInt32.ofNat index)
      (decide (UInt64.ofNat tx.inputs.length = 1)) (0 + j)) w.witnesses).map
        fun inp => { inp with txid := tx.txid D }) =
      tx.inputs.mapIdx (tx.inputRow D height index) := by
  apply List.ext_getElem
  · simp [hlen]
  · intro j h₁ h₂
    have hj : j < tx.inputs.length := by simpa using h₂
    have hjw : j < w.witnesses.length := by omega
    have hstack : tx.stack j = w.witnesses[j] := by
      simp [WireTx.stack, hw, hjw]
    simp only [List.getElem_map, List.getElem_zipWith, List.getElem_mapIdx, Nat.zero_add,
      withWitness, bareInputRow, WireTx.inputRow, coinbase_flag tx hn hj, hstack, UInt32.zero_add]

theorem outputs_filled (tx : WireTx) (height : UInt32) (index : Nat) :
    ((tx.outputs.mapIdx fun j => bareOutputRow D height (UInt32.ofNat index) (0 + j)).map
        fun out => { out with txid := tx.txid D }) =
      tx.outputs.mapIdx (tx.outputRow D height index) := by
  apply List.ext_getElem
  · simp
  · intro j h₁ h₂
    simp only [List.getElem_map, List.getElem_mapIdx, Nat.zero_add, bareOutputRow,
      WireTx.outputRow]

/-- The stripped serialization is the full one without marker, flag and stacks. -/
theorem stripped_length (tx : WireTx) :
    tx.stripped.length = 4 + tx.inputBytes.length + tx.outputBytes.length + 4 := by
  simp only [WireTx.stripped, List.length_append, length_toBytes]
  omega

theorem parseTx_legacy {tx : WireTx} (hl : tx.Parsable) (hw : tx.witness = none)
    (height : UInt32) (index : Nat) {c : Cursor} {tail : List UInt8}
    (h : c.rest = tx.serialize ++ tail) :
    parseTx D c c.data height (UInt32.ofNat index) =
      .ok (tx.rows D height index, c.after tx.serialize) := by
  have hser : tx.serialize = tx.stripped := by rw [WireTx.serialize, hw]
  have hslice := slice_rest h
  rw [hser] at h hslice ⊢
  have h0 : c.rest = toBytes 4 tx.version.toUInt32.toNat ++ (compactSize tx.inputs.length ++
      ((tx.inputs.map WireInput.bytes).flatten ++ (compactSize tx.outputs.length ++
        ((tx.outputs.map WireOutput.bytes).flatten ++ (toBytes 4 tx.locktime.toNat ++ tail))))) := by
    simpa only [WireTx.stripped, WireTx.inputBytes, WireTx.outputBytes, List.append_assoc] using h
  have h1 := Cursor.rest_after h0
  have h2 := Cursor.rest_after h1
  have h3 := Cursor.rest_after h2
  have h4 := Cursor.rest_after h3
  have h5 := Cursor.rest_after h4
  obtain ⟨marker, c', hmarker, hne, hcount⟩ := readInputCount_legacy (UInt32.ofNat index)
    (List.length_eq_zero_iff.not.mpr (hl.inputs_ne_nil hw)) hl.inputs_le h1
  have hins := parseInputs_ok height (UInt32.ofNat index)
    (decide (UInt64.ofNat tx.inputs.length = 1)) tx.inputs hl.scriptSig_le 0 h2
  have houts := parseOutputs_ok (D := D) height (UInt32.ofNat index) tx.outputs
    hl.scriptPubkey_le hl.value_le 0 h4
  have hfalse : decide (marker = 0x00) = false := decide_eq_false hne
  have hzero : (0 : UInt32) = UInt32.ofNat 0 := rfl
  have hafter : (((((c.after (toBytes 4 tx.version.toUInt32.toNat)).after
      (compactSize tx.inputs.length)).after (tx.inputs.map WireInput.bytes).flatten).after
      (compactSize tx.outputs.length)).after (tx.outputs.map WireOutput.bytes).flatten).after
      (toBytes 4 tx.locktime.toNat) = c.after tx.stripped := by
    simp only [Cursor.after_after, WireTx.stripped, WireTx.inputBytes, WireTx.outputBytes,
      List.append_assoc]
  simp only [parseTx, Cursor.readI32_ok h0, hmarker, hcount, toUInt32_count hl.inputs_le, hzero,
    hins, Cursor.readCount_ok hl.outputs_le h3, toUInt32_count hl.outputs_le, houts,
    hfalse, Bool.false_eq_true, if_false, Cursor.readU32_ok h5, liftCursor_ok, ok_bind,
    pure_eq_ok, hafter, Cursor.after_pos, hslice, Nat.add_sub_cancel_left, toUInt32_ofNat]
  rw [show dsha256 D tx.stripped = tx.txid D from rfl, inputs_legacy tx hl.inputs_le hw,
    outputs_filled]
  simp only [WireTx.rows, WireTx.txRow, WireTx.weight, hser, hw, Option.isSome_none,
    Nat.mul_comm 3]

theorem parseTx_segwit {tx : WireTx} (hl : tx.Parsable) {w : WireWitness}
    (hw : tx.witness = some w) (height : UInt32) (index : Nat) {c : Cursor} {tail : List UInt8}
    (h : c.rest = tx.serialize ++ tail) :
    parseTx D c c.data height (UInt32.ofNat index) =
      .ok (tx.rows D height index, c.after tx.serialize) := by
  have hser : tx.serialize = toBytes 4 tx.version.toUInt32.toNat ++ (0x00 :: w.flag ::
      (tx.inputBytes ++ (tx.outputBytes ++ ((w.witnesses.map stackBytes).flatten ++
        toBytes 4 tx.locktime.toNat)))) := by
    rw [WireTx.serialize, hw]
  have h0 : c.rest = toBytes 4 tx.version.toUInt32.toNat ++ ([0x00] ++ (([w.flag] ++
      compactSize tx.inputs.length) ++ ((tx.inputs.map WireInput.bytes).flatten ++
        (compactSize tx.outputs.length ++ ((tx.outputs.map WireOutput.bytes).flatten ++
          ((w.witnesses.map stackBytes).flatten ++ (toBytes 4 tx.locktime.toNat ++ tail))))))) := by
    rw [h, hser]
    simp [WireTx.inputBytes, WireTx.outputBytes, List.append_assoc]
  have h1 := Cursor.rest_after h0
  have h2 := Cursor.rest_after h1
  have h3 := Cursor.rest_after h2
  have h4 := Cursor.rest_after h3
  have h5 := Cursor.rest_after h4
  have h6 := Cursor.rest_after h5
  have h7 := Cursor.rest_after h6
  have h2' := h2
  rw [List.append_assoc] at h2'
  have hcount := readInputCount_segwit (UInt32.ofNat index) (hl.flag_ne w hw) hl.inputs_le h2'
  have hins := parseInputs_ok height (UInt32.ofNat index)
    (decide (UInt64.ofNat tx.inputs.length = 1)) tx.inputs hl.scriptSig_le 0 h3
  have houts := parseOutputs_ok (D := D) height (UInt32.ofNat index) tx.outputs
    hl.scriptPubkey_le hl.value_le 0 h5
  have hwit := readWitnesses_ok (tx.inputs.mapIdx fun j => bareInputRow height
    (UInt32.ofNat index) (decide (UInt64.ofNat tx.inputs.length = 1)) (0 + j)) w.witnesses
    (by simpa using hl.witnesses_length w hw) (hl.stack_le w hw) (hl.item_le w hw) h6
  have hzero : (0 : UInt32) = UInt32.ofNat 0 := rfl
  -- The prefix up to the outputs, the locktime slice and the end of the transaction.
  obtain ⟨core, hdef⟩ : ∃ core, core = toBytes 4 tx.version.toUInt32.toNat ++ (0x00 :: w.flag ::
    (tx.inputBytes ++ tx.outputBytes)) := ⟨_, rfl⟩
  have hcore : c.rest = core ++ ((w.witnesses.map stackBytes).flatten ++
      (toBytes 4 tx.locktime.toNat ++ tail)) := by
    rw [h, hser]
    simp [hdef, List.append_assoc]
  have hcoreAfter : (((((c.after (toBytes 4 tx.version.toUInt32.toNat)).after [0x00]).after
      ([w.flag] ++ compactSize tx.inputs.length)).after
      (tx.inputs.map WireInput.bytes).flatten).after (compactSize tx.outputs.length)).after
      (tx.outputs.map WireOutput.bytes).flatten = c.after core := by
    simp [Cursor.after_after, hdef, WireTx.inputBytes, WireTx.outputBytes, List.append_assoc]
  rw [hcoreAfter] at hwit h7
  have hlock := slice_rest h7
  have hend : ((c.after core).after (w.witnesses.map stackBytes).flatten).after
      (toBytes 4 tx.locktime.toNat) = c.after tx.serialize := by
    rw [hser]
    simp [Cursor.after_after, hdef, List.append_assoc]
  have hlockSlice : slice c.data ((c.after tx.serialize).pos - 4) (c.after tx.serialize).pos =
      toBytes 4 tx.locktime.toNat := by
    rw [← hend]
    simpa using hlock
  have hsliced := slice_rest hcore
  have hstripped : core.take 4 ++ core.drop 6 ++ toBytes 4 tx.locktime.toNat = tx.stripped := by
    have h4 : (toBytes 4 tx.version.toUInt32.toNat).length = 4 := length_toBytes _ _
    simp only [hdef, WireTx.stripped]
    rw [List.take_append_of_le_length (by omega), List.take_of_length_le (by omega),
      List.drop_append, List.drop_eq_nil_of_le (by omega), h4]
    simp [List.append_assoc]
  have hcoreLen : core.length - 2 + 4 = tx.stripped.length := by
    rw [stripped_length]
    simp only [hdef, List.length_append, List.length_cons, length_toBytes]
    omega
  simp only [parseTx, Cursor.readI32_ok h0, Cursor.readU8_ok h1, hcount,
    toUInt32_ofNat, toUInt32_count hl.inputs_le, hzero, hins,
    Cursor.readCount_ok hl.outputs_le h4, toUInt32_count hl.outputs_le, houts, decide_true,
    if_true, hcoreAfter, hwit, Cursor.readU32_ok h7, liftCursor_ok, ok_bind, pure_eq_ok, hend,
    hlockSlice]
  simp only [Cursor.after_pos, hsliced, hstripped, Nat.add_sub_cancel_left, hcoreLen]
  rw [show dsha256 D tx.stripped = tx.txid D from rfl,
    inputs_segwit tx hl.inputs_le hw (hl.witnesses_length w hw), outputs_filled]
  simp only [WireTx.rows, WireTx.txRow, WireTx.weight, hw, Option.isSome_some, Nat.mul_comm 3]

/-- `parse_tx` reads one serialized transaction, legacy or segwit. -/
theorem parseTx_ok {tx : WireTx} (hl : tx.Parsable) (height : UInt32) (index : Nat)
    {c : Cursor} {tail : List UInt8} (h : c.rest = tx.serialize ++ tail) :
    parseTx D c c.data height (UInt32.ofNat index) =
      .ok (tx.rows D height index, c.after tx.serialize) := by
  cases hw : tx.witness with
  | none => exact parseTx_legacy hl hw height index h
  | some w => exact parseTx_segwit hl hw height index h

/-! ## The block -/

theorem map_mapIdx {α β γ : Type} (l : List α) (f : Nat → α → β) (g : β → γ) :
    (l.mapIdx f).map g = l.mapIdx fun i a => g (f i a) :=
  List.ext_getElem (by simp) fun i h₁ h₂ => by simp

theorem parseTxs_ok (height : UInt32) (txs : List WireTx) (hl : ∀ tx ∈ txs, tx.Parsable)
    (start : Nat) {c : Cursor} {tail : List UInt8}
    (h : c.rest = (txs.map WireTx.serialize).flatten ++ tail) :
    parseTxs D c.data height txs.length (UInt32.ofNat start) c =
      .ok (txs.mapIdx fun i => WireTx.rows D height (start + i),
        c.after (txs.map WireTx.serialize).flatten) := by
  induction txs generalizing start c with
  | nil => rfl
  | cons tx txs ih =>
      have h0 : c.rest = tx.serialize ++ ((txs.map WireTx.serialize).flatten ++ tail) := by
        simpa [List.append_assoc] using h
      have htx := parseTx_ok (D := D) (hl tx List.mem_cons_self) height start h0
      have hrec := ih (fun k hk => hl k (List.mem_cons_of_mem _ hk)) (start + 1)
        (Cursor.rest_after h0)
      rw [Cursor.after_data] at hrec
      simp only [List.length_cons, parseTxs, htx, ok_bind, ofNat_succ_u32, hrec, pure_eq_ok]
      simp only [Cursor.after_after, List.map_cons, List.flatten_cons, List.mapIdx_cons,
        Nat.add_zero, Nat.add_right_comm start 1]
      rfl

theorem stripped_length_le (tx : WireTx) : tx.stripped.length ≤ tx.serialize.length := by
  cases hw : tx.witness with
  | none =>
      have hser : tx.serialize = tx.stripped := by rw [WireTx.serialize, hw]
      rw [hser]
  | some w =>
      rw [stripped_length, WireTx.serialize, hw]
      simp only [List.length_append, List.length_cons, length_toBytes]
      omega

/-- A witness stack is no longer than the transaction that carries it. -/
theorem stack_total_le (tx : WireTx) (j : Nat) :
    ((tx.stack j).map List.length).sum ≤ tx.serialize.length := by
  cases hw : tx.witness with
  | none => simp [WireTx.stack, hw]
  | some w =>
      have hstack : ((tx.stack j).map List.length).sum ≤
          (w.witnesses.map stackBytes).flatten.length := by
        by_cases hj : j < w.witnesses.length
        · have hget : tx.stack j = w.witnesses[j] := by simp [WireTx.stack, hw, hj]
          have hsub := (List.sublist_flatten_of_mem
            (List.mem_map_of_mem (f := stackBytes) (List.getElem_mem hj))).length_le
          have hitems : ((tx.stack j).map List.length).sum ≤ (stackBytes (tx.stack j)).length := by
            generalize tx.stack j = s
            rw [stackBytes, List.length_append]
            refine le_trans ?_ (Nat.le_add_left _ _)
            induction s with
            | nil => simp
            | cons item s ih =>
                simp only [List.map_cons, List.sum_cons, List.flatten_cons, List.length_append,
                  varBytes] at ih ⊢
                omega
          rw [hget] at hitems ⊢
          exact hitems.trans hsub
        · simp [WireTx.stack, hw, hj]
      rw [WireTx.serialize, hw]
      simp only [List.length_append, List.length_cons, length_toBytes]
      omega

/-- In a block below `2 ^ 30` bytes no `u32` field of a transaction's rows is
truncated. -/
theorem rows_numbers {tx : WireTx} (hl : tx.Parsable) (hsize : tx.serialize.length < 2 ^ 30)
    (height : UInt32) {index : Nat} (hindex : index ≤ Cursor.maxItems) :
    (tx.txRow D height index).numbers = tx.txNumbers index ∧
    (tx.inputs.mapIdx (tx.inputRow D height index)).map InputRow.numbers =
      tx.inputs.mapIdx (tx.inputNumbers index) ∧
    (tx.outputs.mapIdx (tx.outputRow D height index)).map OutputRow.numbers =
      tx.outputs.mapIdx (WireTx.outputNumbers index) := by
  have hstripped := stripped_length_le tx
  have hexact : ∀ n, n < 2 ^ 32 → (UInt32.ofNat n).toNat = n := fun n hn =>
    UInt32.toNat_ofNat_of_lt' hn
  refine ⟨?_, ?_, ?_⟩
  · have hweight : tx.weight < 2 ^ 32 := by
      rw [WireTx.weight]
      omega
    simp only [TxRow.numbers, WireTx.txRow, WireTx.txNumbers, toUInt32_count hindex,
      toUInt32_count hl.inputs_le, toUInt32_count hl.outputs_le, hexact _ hweight,
      hexact tx.serialize.length (by omega)]
  · apply List.ext_getElem
    · simp
    · intro j h₁ h₂
      have hj : j < tx.inputs.length := by simpa using h₂
      have hscript := hl.scriptSig_le _ (List.getElem_mem hj)
      have htotal := stack_total_le tx j
      have hitems : (tx.stack j).length ≤ Cursor.maxItems := by
        cases hw : tx.witness with
        | none => simp [WireTx.stack, hw]
        | some w =>
            have hjw : j < w.witnesses.length := by
              rw [hl.witnesses_length w hw]
              exact hj
            simpa [WireTx.stack, hw, hjw] using hl.stack_le w hw _ (List.getElem_mem hjw)
      simp only [List.getElem_map, List.getElem_mapIdx, InputRow.numbers, WireTx.inputRow,
        WireTx.inputNumbers, toUInt32_count hindex, toUInt32_count (hj.le.trans hl.inputs_le),
        toUInt32_count hscript, toUInt32_count hitems,
        hexact ((tx.stack j).map List.length).sum (by omega)]
  · apply List.ext_getElem
    · simp
    · intro j h₁ h₂
      have hj : j < tx.outputs.length := by simpa using h₂
      have hscript := hl.scriptPubkey_le _ (List.getElem_mem hj)
      simp only [List.getElem_map, List.getElem_mapIdx, OutputRow.numbers, WireTx.outputRow,
        WireTx.outputNumbers, toUInt32_count hindex, toUInt32_count (hj.le.trans hl.outputs_le),
        toUInt32_count hscript]

/-- A wrapping `u64` sum is the sum modulo `2 ^ 64`. -/
theorem sum_u64_toNat (values : List UInt64) :
    values.sum.toNat = (values.map UInt64.toNat).sum % 2 ^ 64 := by
  induction values with
  | nil => rfl
  | cons v values ih =>
      rw [List.sum_cons, UInt64.toNat_add, ih, List.map_cons, List.sum_cons, Nat.add_mod_mod]

/-- The block of a list of transactions, as the code assembles it from their rows. -/
def wireBlock (D : Digests) (payload : List UInt8) (height : UInt32) (blockHash : Hash32)
    (hdr : BlockHeader) (txs : List WireTx) : FullBlock :=
  let parsed := txs.mapIdx (WireTx.rows D height)
  { blockRow := {
      height
      hash := blockHash
      prevHash := hdr.prevHash
      merkleRoot := hdr.merkleRoot
      time := hdr.time
      bits := hdr.bits
      nonce := hdr.nonce
      version := hdr.version
      txCount := UInt32.ofNat txs.length
      size := UInt32.ofNat payload.length
      weight := UInt32.ofNat (min ((parsed.map fun p => p.tx.weight.toUInt64).sum + 80 * 4).toNat
        0xFFFFFFFF)
      totalFee := 0
      coinbaseValue := match parsed with
        | [] => 0
        | first :: _ => (first.outputs.map OutputRow.valueSat).sum }
    txs := parsed.map ParsedTx.tx
    inputs := (parsed.map ParsedTx.inputs).flatten
    outputs := (parsed.map ParsedTx.outputs).flatten }

/-- The parser on the canonical payload of any list of transactions it has no objection to,
whatever follows the payload. -/
theorem parseBlockFull_append (header : Bytes 80) (txs : List WireTx) (tail : List UInt8)
    (hcount : txs.length ≤ Cursor.maxItems) (hl : ∀ tx ∈ txs, tx.Parsable) (height : UInt32)
    (blockHash : Hash32) (hdr : BlockHeader) :
    parseBlockFull D (blockBytes header txs ++ tail) height blockHash hdr =
      .ok (wireBlock D (blockBytes header txs ++ tail) height blockHash hdr txs) := by
  obtain ⟨payload, hpayload⟩ : ∃ payload, payload = blockBytes header txs ++ tail := ⟨_, rfl⟩
  rw [← hpayload]
  have hrest : (Cursor.new payload).rest = header.toList ++
      (compactSize txs.length ++ ((txs.map WireTx.serialize).flatten ++ tail)) := by
    simp [Cursor.rest, Cursor.new, blockBytes, hpayload]
  have hskip : (Cursor.new payload).skip 80 =
      .ok ((Cursor.new payload).after header.toList) := by
    have := Cursor.skip_ok hrest
    rwa [header.toList_length] at this
  have h1 := Cursor.rest_after hrest
  have htxs := parseTxs_ok (D := D) height txs hl 0 (Cursor.rest_after h1)
  have hlength : (txs.mapIdx (WireTx.rows D height)).length = txs.length := by
    simp
  have hindex : (txs.mapIdx fun i => WireTx.rows D height (0 + i)) =
      txs.mapIdx (WireTx.rows D height) := by
    simp only [Nat.zero_add]
  have hzero : (0 : UInt32) = UInt32.ofNat 0 := rfl
  simp only [Cursor.after_data, show (Cursor.new payload).data = payload from rfl, hindex] at htxs
  simp only [parseBlockFull, hskip, Cursor.readCount_ok hcount h1, toUInt32_ofNat,
    toUInt32_count hcount, hzero, htxs, liftCursor_ok, ok_bind, hlength, ne_eq, not_true,
    if_false, pure_eq_ok]
  rfl

theorem parseBlockFull_wire (header : Bytes 80) (txs : List WireTx)
    (hcount : txs.length ≤ Cursor.maxItems) (hl : ∀ tx ∈ txs, tx.Parsable) (height : UInt32)
    (blockHash : Hash32) (hdr : BlockHeader) :
    parseBlockFull D (blockBytes header txs) height blockHash hdr =
      .ok (wireBlock D (blockBytes header txs) height blockHash hdr txs) := by
  have happend := parseBlockFull_append (D := D) header txs [] hcount hl height blockHash hdr
  rwa [List.append_nil] at happend

/-- **Parser round trip.**  On the canonical payload of any non-empty list of
transactions within the limits, the parser returns one row per transaction,
input and output, in order, with the fields of the transaction; and in a block
below `2 ^ 30` bytes every index, length, count and total in a `u32` field is
the exact number. -/
theorem parseBlockFull_blockBytes (D : Digests) (header : Bytes 80) (txs : List WireTx)
    (hne : txs ≠ []) (hcount : txs.length ≤ Cursor.maxItems)
    (hl : ∀ tx ∈ txs, tx.WithinLimits) (hsize : (blockBytes header txs).length < 2 ^ 30)
    (height : UInt32) (blockHash : Hash32) (hdr : BlockHeader) :
    ∃ block, parseBlockFull D (blockBytes header txs) height blockHash hdr = .ok block ∧
      block.txs = txs.mapIdx (WireTx.txRow D height) ∧
      block.inputs =
        (txs.mapIdx fun i tx => tx.inputs.mapIdx (tx.inputRow D height i)).flatten ∧
      block.outputs =
        (txs.mapIdx fun i tx => tx.outputs.mapIdx (tx.outputRow D height i)).flatten ∧
      block.txs.map TxRow.numbers = txs.mapIdx WireTx.txNumbers ∧
      block.inputs.map InputRow.numbers =
        (txs.mapIdx fun i tx => tx.inputs.mapIdx (tx.inputNumbers i)).flatten ∧
      block.outputs.map OutputRow.numbers =
        (txs.mapIdx fun i tx => tx.outputs.mapIdx (WireTx.outputNumbers i)).flatten ∧
      block.blockRow.txCount.toNat = txs.length ∧
      block.blockRow.size.toNat = (blockBytes header txs).length ∧
      block.blockRow.coinbaseValue.toNat =
        ((txs.head hne).outputs.map fun o => o.value.toNat).sum := by
  have hserialize : ∀ tx ∈ txs, tx.serialize.length < 2 ^ 30 := by
    intro tx htx
    have hsub := (List.sublist_flatten_of_mem
      (List.mem_map_of_mem (f := WireTx.serialize) htx)).length_le
    simp only [blockBytes, List.length_append] at hsize
    omega
  have hparsable : ∀ tx ∈ txs, tx.Parsable := fun tx htx => (hl tx htx).parsable
  have hnumbers : ∀ (i : Nat) (hi : i < txs.length), _ := fun i hi =>
    rows_numbers (D := D) (hparsable _ (List.getElem_mem hi)) (hserialize _ (List.getElem_mem hi))
      height (hi.le.trans hcount)
  refine ⟨_, parseBlockFull_wire header txs hcount hparsable height blockHash hdr, ?_, ?_, ?_, ?_,
    ?_, ?_, toUInt32_count hcount,
    UInt32.toNat_ofNat_of_lt' (hsize.trans (by norm_num [UInt32.size])), ?_⟩
  · simp only [wireBlock, map_mapIdx, WireTx.rows]
  · simp only [wireBlock, map_mapIdx, WireTx.rows]
  · simp only [wireBlock, map_mapIdx, WireTx.rows]
  · simp only [wireBlock, map_mapIdx, WireTx.rows]
    exact List.mapIdx_eq_mapIdx_iff.mpr fun i hi => (hnumbers i hi).1
  · simp only [wireBlock, List.map_flatten, map_mapIdx, WireTx.rows]
    congr 1
    exact List.mapIdx_eq_mapIdx_iff.mpr fun i hi => by simpa only [map_mapIdx] using (hnumbers i hi).2.1
  · simp only [wireBlock, List.map_flatten, map_mapIdx, WireTx.rows]
    congr 1
    exact List.mapIdx_eq_mapIdx_iff.mpr fun i hi => by simpa only [map_mapIdx] using (hnumbers i hi).2.2
  · obtain ⟨tx, txs, rfl⟩ := List.exists_cons_of_ne_nil hne
    have htotal := (hl tx List.mem_cons_self).total_lt
    have hvalues : ((tx.outputs.mapIdx (tx.outputRow D height 0)).map
        OutputRow.valueSat).map UInt64.toNat = tx.outputs.map fun o => o.value.toNat := by
      apply List.ext_getElem (by simp)
      intro j h₁ h₂
      simp [WireTx.outputRow]
    simp only [wireBlock, List.mapIdx_cons, List.head_cons, WireTx.rows]
    rw [sum_u64_toNat, hvalues, Nat.mod_eq_of_lt htotal]

/-- A coinbase transaction paying 50 coins. -/
def sampleCoinbase : WireTx where
  version := 1
  inputs := [⟨zeroBytes 32, 0xFFFFFFFF, [0x51], 0xFFFFFFFF⟩]
  outputs := [⟨5000000000, [0x51]⟩]
  locktime := 0
  witness := none

/-- A segwit spend to a P2WPKH output with a two-item witness. -/
def sampleSegwit : WireTx where
  version := 2
  inputs := [⟨List.Vector.replicate 32 0xab, 0, [], 0xFFFFFFFE⟩]
  outputs := [⟨1000, 0x00 :: 0x14 :: List.replicate 20 0x11⟩]
  locktime := 0
  witness := some ⟨1, [[[0x30, 0x45], []]]⟩

/-- SHA-256 on the two stripped serializations and on their first digests. -/
def sampleDigests : Digests :=
  let first0 := wordBytes 32 0x73afff974a18777131c5a60af86962dedae646cfcb6c9f0478c7d5dd99f8214b
  let first1 := wordBytes 32 0x2c5619e05536e5ec43347bb0b2b6af6bce8a7b71e828be1e13cd2806675d08d0
  Digests.ofTable [
    (sampleCoinbase.stripped, first0),
    (first0.toList,
      wordBytes 32 0x8a80d3fdd7bfacbfeca3c58c84102d3bb7d6a2aadf67c0bed8c84890470c4e9a),
    (sampleSegwit.stripped, first1),
    (first1.toList,
      wordBytes 32 0x423119d8b4f6a1432008e8633a34705d0724b80c0de96114001308eba5e54969)]

theorem sampleCoinbase_withinLimits : sampleCoinbase.WithinLimits where
  inputs_ne_nil := by decide
  inputs_le := by decide
  outputs_le := by decide
  scriptSig_le := by decide
  scriptPubkey_le := by decide
  value_le := by decide
  total_lt := by decide
  flag_ne := by simp [sampleCoinbase]
  witnesses_length := by simp [sampleCoinbase]
  stack_le := by simp [sampleCoinbase]
  item_le := by simp [sampleCoinbase]

theorem sampleSegwit_withinLimits : sampleSegwit.WithinLimits where
  inputs_ne_nil := by decide
  inputs_le := by decide
  outputs_le := by decide
  scriptSig_le := by decide
  scriptPubkey_le := by decide
  value_le := by decide
  total_lt := by decide
  flag_ne := by simp [sampleSegwit]
  witnesses_length := by simp [sampleSegwit]
  stack_le := by simp [sampleSegwit, Cursor.maxItems]
  item_le := by simp [sampleSegwit, Cursor.maxItems]

/-- The round trip at a block of one legacy and one segwit transaction. -/
theorem parseBlockFull_blockBytes_sample :
    (blockBytes (zeroBytes 80) [sampleCoinbase, sampleSegwit]).length = 232 ∧
    ∃ block, parseBlockFull sampleDigests
        (blockBytes (zeroBytes 80) [sampleCoinbase, sampleSegwit]) 7 Hash32.zero
        (BlockHeader.parse (zeroBytes 80)) = .ok block ∧
      block.txs = [sampleCoinbase.txRow sampleDigests 7 0, sampleSegwit.txRow sampleDigests 7 1] ∧
      block.inputs.map InputRow.numbers = [[0, 0, 1, 0, 0], [1, 0, 0, 2, 2]] ∧
      block.blockRow.coinbaseValue.toNat = 5000000000 := by
  have hsize : (blockBytes (zeroBytes 80) [sampleCoinbase, sampleSegwit]).length = 232 := by
    decide +kernel
  have hlimits : ∀ tx ∈ [sampleCoinbase, sampleSegwit], tx.WithinLimits := by
    intro tx htx
    simp only [List.mem_cons, List.not_mem_nil, or_false] at htx
    rcases htx with rfl | rfl
    · exact sampleCoinbase_withinLimits
    · exact sampleSegwit_withinLimits
  obtain ⟨block, hok, htxs, -, -, -, hnumbers, -, -, -, hvalue⟩ :=
    parseBlockFull_blockBytes sampleDigests (zeroBytes 80) [sampleCoinbase, sampleSegwit]
      (by simp) (by decide) hlimits (by rw [hsize]; norm_num) 7 Hash32.zero
      (BlockHeader.parse (zeroBytes 80))
  exact ⟨hsize, block, hok, htxs, hnumbers, hvalue⟩

end Bidx
