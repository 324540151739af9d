import Bidx.Parser.RowShape
import Bidx.Parser.RoundTrip

/-!
# What an accepted payload is

`Bidx.Parser.RoundTrip` goes from transactions to bytes and back.  Here the bytes
come first: whatever payload `parseBlockFull` accepts starts with a header, a
count and that many serialized transactions, and the rows are the rows of these
transactions.  The serialization need not be canonical, since `read_varint` takes
a count in any width that holds it; the spelling of each count is part of what is
recovered.  Nothing is said of the bytes behind the last transaction.
-/

namespace Bidx

open LittleEndian

/-! ## Reads, from the result -/

/-- Between two cursors the bytes `bs` are read. -/
structure Cursor.Reads (c : Cursor) (bs : List UInt8) (c' : Cursor) : Prop where
  after : c' = c.after bs
  rest : c.rest = bs ++ c'.rest

namespace Cursor

variable {c c' c'' : Cursor} {bs bs' : List UInt8}

theorem Reads.nil (c : Cursor) : c.Reads [] c := ⟨rfl, rfl⟩

theorem Reads.trans (h : c.Reads bs c') (h' : c'.Reads bs' c'') : c.Reads (bs ++ bs') c'' where
  after := by rw [h'.after, h.after, after_after]
  rest := by rw [h.rest, h'.rest, List.append_assoc]

theorem Reads.data (h : c.Reads bs c') : c'.data = c.data := by rw [h.after, after_data]

theorem Reads.pos (h : c.Reads bs c') : c'.pos = c.pos + bs.length := by
  rw [h.after, after_pos]

theorem need_eq_ok {n : Nat} {u : Unit} (h : c.need n = .ok u) : n ≤ c.rest.length := by
  rw [← remaining_eq]
  by_contra hlt
  rw [need, if_pos (Nat.lt_of_not_le hlt)] at h
  contradiction

theorem reads_take {n : Nat} (h : n ≤ c.rest.length) : c.Reads (c.rest.take n) (c.advance n) where
  after := by rw [after, List.length_take_of_le h]
  rest := by
    change c.rest = c.rest.take n ++ c.data.drop (c.pos + n)
    rw [← List.drop_drop]
    exact (List.take_append_drop n c.rest).symm

theorem readBytes_eq_ok {n : Nat} (h : c.readBytes n = .ok (bs, c')) :
    bs.length = n ∧ c.Reads bs c' := by
  obtain ⟨_, hneed, h⟩ := except_bind_eq_ok h
  obtain ⟨rfl, rfl⟩ := Prod.mk.inj (Except.ok.inj h)
  have hle := need_eq_ok hneed
  exact ⟨List.length_take_of_le hle, reads_take hle⟩

theorem skip_eq_ok {n : Nat} (h : c.skip n = .ok c') :
    ∃ skipped : List UInt8, skipped.length = n ∧ c.Reads skipped c' := by
  obtain ⟨_, hneed, h⟩ := except_bind_eq_ok h
  obtain rfl := Except.ok.inj h
  have hle := need_eq_ok hneed
  exact ⟨c.rest.take n, List.length_take_of_le hle, reads_take hle⟩

theorem readArray_eq_ok {n : Nat} {a : Bytes n} (h : c.readArray n = .ok (a, c')) :
    c.Reads a.toList c' := by
  obtain ⟨_, hneed, h⟩ := except_bind_eq_ok h
  obtain ⟨rfl, rfl⟩ := Prod.mk.inj (Except.ok.inj h)
  have hle := need_eq_ok hneed
  rw [arrayAt_toList hle]
  exact reads_take hle

theorem readU8_eq_ok {b : UInt8} (h : c.readU8 = .ok (b, c')) : c.Reads [b] c' := by
  obtain ⟨⟨bs, c₁⟩, hread, h⟩ := except_bind_eq_ok h
  obtain ⟨rfl, rfl⟩ := Prod.mk.inj (Except.ok.inj h)
  obtain ⟨hlen, hreads⟩ := readBytes_eq_ok hread
  obtain ⟨b, rfl⟩ := List.length_eq_one_iff.mp hlen
  exact hreads

theorem readU16_eq_ok {v : UInt16} (h : c.readU16 = .ok (v, c')) :
    c.Reads (toBytes 2 v.toNat) c' := by
  obtain ⟨⟨bs, c₁⟩, hread, h⟩ := except_bind_eq_ok h
  obtain ⟨rfl, rfl⟩ := Prod.mk.inj (Except.ok.inj h)
  obtain ⟨hlen, hreads⟩ := readBytes_eq_ok hread
  have hlt := ofBytes_lt bs
  rw [hlen] at hlt
  rw [UInt16.toNat_ofNat_of_lt' hlt, ← hlen, toBytes_ofBytes]
  exact hreads

theorem readU32_eq_ok {v : UInt32} (h : c.readU32 = .ok (v, c')) :
    c.Reads (toBytes 4 v.toNat) c' := by
  obtain ⟨⟨bs, c₁⟩, hread, h⟩ := except_bind_eq_ok h
  obtain ⟨rfl, rfl⟩ := Prod.mk.inj (Except.ok.inj h)
  obtain ⟨hlen, hreads⟩ := readBytes_eq_ok hread
  rw [toBytes_ofBytes_u32 hlen]
  exact hreads

theorem readI32_eq_ok {v : Int32} (h : c.readI32 = .ok (v, c')) :
    c.Reads (toBytes 4 v.toUInt32.toNat) c' := by
  obtain ⟨⟨w, c₁⟩, hread, h⟩ := except_bind_eq_ok h
  obtain ⟨rfl, rfl⟩ := Prod.mk.inj (Except.ok.inj h)
  exact readU32_eq_ok hread

theorem readU64_eq_ok {v : UInt64} (h : c.readU64 = .ok (v, c')) :
    c.Reads (toBytes 8 v.toNat) c' := by
  obtain ⟨⟨bs, c₁⟩, hread, h⟩ := except_bind_eq_ok h
  obtain ⟨rfl, rfl⟩ := Prod.mk.inj (Except.ok.inj h)
  obtain ⟨hlen, hreads⟩ := readBytes_eq_ok hread
  rw [toBytes_ofBytes_u64 hlen]
  exact hreads

end Cursor

/-! ## Counts in any width -/

/-- The spellings of a number that `read_varint` takes for it. -/
inductive CountBytes : Nat → List UInt8 → Prop where
  | one (b : UInt8) : b ≤ 0xfc → CountBytes b.toNat [b]
  | two (n : UInt16) : CountBytes n.toNat (0xfd :: toBytes 2 n.toNat)
  | four (n : UInt32) : CountBytes n.toNat (0xfe :: toBytes 4 n.toNat)
  | eight (n : UInt64) : CountBytes n.toNat (0xff :: toBytes 8 n.toNat)

theorem CountBytes.length {n : Nat} {bs : List UInt8} (h : CountBytes n bs) :
    bs.length = 1 ∨ bs.length = 3 ∨ bs.length = 5 ∨ bs.length = 9 := by
  cases h <;> simp

/-- The first byte of a count has one of four ranges. -/
theorem eq_ff_of_ne {first : UInt8} (hone : ¬ first ≤ 0xfc) (htwo : first ≠ 0xfd)
    (hfour : first ≠ 0xfe) : first = 0xff := by
  rw [UInt8.le_iff_toNat_le] at hone
  rw [ne_eq, ← UInt8.toNat_inj] at htwo hfour
  rw [← UInt8.toNat_inj]
  have hlt := first.toNat_lt
  simp at hone htwo hfour ⊢
  omega

theorem liftCursor_eq_ok {α : Type} {r : Except ParseError α} {a : α}
    (h : liftCursor r = .ok a) : r = .ok a := by
  cases r with
  | error e => contradiction
  | ok b => exact congrArg Except.ok (Except.ok.inj h)

namespace Cursor

variable {c c' : Cursor}

theorem readVarint_eq_ok {v : UInt64} (h : c.readVarint = .ok (v, c')) :
    ∃ bs, CountBytes v.toNat bs ∧ c.Reads bs c' := by
  rw [readVarint] at h
  obtain ⟨⟨first, c₁⟩, hfirst, h⟩ := except_bind_eq_ok h
  have hreads := readU8_eq_ok hfirst
  dsimp only at h
  by_cases hone : first ≤ 0xfc
  · rw [if_pos hone] at h
    obtain ⟨rfl, rfl⟩ := Prod.mk.inj (Except.ok.inj h)
    rw [UInt8.toNat_toUInt64]
    exact ⟨_, .one first hone, hreads⟩
  rw [if_neg hone] at h
  by_cases htwo : first = 0xfd
  · rw [if_pos htwo] at h
    obtain ⟨⟨n, c₂⟩, hword, h⟩ := except_bind_eq_ok h
    obtain ⟨rfl, rfl⟩ := Prod.mk.inj (Except.ok.inj h)
    rw [UInt16.toNat_toUInt64]
    exact ⟨_, .two n, htwo ▸ hreads.trans (readU16_eq_ok hword)⟩
  rw [if_neg htwo] at h
  by_cases hfour : first = 0xfe
  · rw [if_pos hfour] at h
    obtain ⟨⟨n, c₂⟩, hword, h⟩ := except_bind_eq_ok h
    obtain ⟨rfl, rfl⟩ := Prod.mk.inj (Except.ok.inj h)
    rw [UInt32.toNat_toUInt64]
    exact ⟨_, .four n, hfour ▸ hreads.trans (readU32_eq_ok hword)⟩
  rw [if_neg hfour] at h
  have height : first = 0xff := eq_ff_of_ne hone htwo hfour
  cases hword : c₁.readU64 with
  | error e =>
      rw [hword] at h
      contradiction
  | ok read =>
      rw [hword] at h
      obtain rfl := Except.ok.inj h
      exact ⟨_, .eight v, height ▸ hreads.trans (readU64_eq_ok hword)⟩

theorem readCount_eq_ok {v : UInt64} (h : c.readCount = .ok (v, c')) :
    v.toNat ≤ maxItems ∧ ∃ bs, CountBytes v.toNat bs ∧ c.Reads bs c' := by
  rw [readCount] at h
  obtain ⟨⟨n, c₁⟩, hvarint, h⟩ := except_bind_eq_ok h
  dsimp only at h
  by_cases hlarge : maxItems < n.toNat
  · rw [if_pos hlarge] at h
    contradiction
  · rw [if_neg hlarge] at h
    obtain ⟨rfl, rfl⟩ := Prod.mk.inj (Except.ok.inj h)
    exact ⟨Nat.le_of_not_lt hlarge, readVarint_eq_ok hvarint⟩

end Cursor

/-- The loops run as often as the count says: the `as u32` cast loses nothing. -/
theorem toNat_toUInt32_of_lt {n : UInt64} (h : n.toNat < 2 ^ 32) : n.toUInt32.toNat = n.toNat := by
  rw [UInt64.toNat_toUInt32]
  exact Nat.mod_eq_of_lt h

theorem lt_of_le_maxItems {k : Nat} (h : k ≤ Cursor.maxItems) : k < 2 ^ 32 :=
  h.trans_lt (by norm_num [Cursor.maxItems])

theorem ofNat_eq_toUInt32 {k : Nat} {n : UInt64} (h : k = n.toNat) :
    UInt32.ofNat k = n.toUInt32 := by
  rw [h, ← toUInt32_ofNat, UInt64.ofNat_toNat]

/-! ## Serialized items -/

/-- Bytes of an input, its script length spelled in some width. -/
def InputBytes (i : WireInput) (bs : List UInt8) : Prop :=
  ∃ len, CountBytes i.scriptSig.length len ∧ i.scriptSig.length ≤ Cursor.maxItems ∧
    bs = i.prevTxid.toList ++ (toBytes 4 i.prevVout.toNat ++
      (len ++ (i.scriptSig ++ toBytes 4 i.sequence.toNat)))

/-- Bytes of an output. -/
def OutputBytes (o : WireOutput) (bs : List UInt8) : Prop :=
  ∃ len, CountBytes o.scriptPubkey.length len ∧ o.scriptPubkey.length ≤ Cursor.maxItems ∧
    o.value.toNat ≤ maxMoney ∧ bs = toBytes 8 o.value.toNat ++ (len ++ o.scriptPubkey)

/-- Bytes of a witness item. -/
def ItemBytes (item : List UInt8) (bs : List UInt8) : Prop :=
  ∃ len, CountBytes item.length len ∧ item.length ≤ Cursor.maxItems ∧ bs = len ++ item

/-- Bytes of a witness stack. -/
def StackBytes (stack : List (List UInt8)) (bs : List UInt8) : Prop :=
  ∃ count parts, CountBytes stack.length count ∧ stack.length ≤ Cursor.maxItems ∧
    List.Forall₂ ItemBytes stack parts ∧ bs = count ++ parts.flatten

section Loops

variable {D : Digests} {height txIndex : UInt32} {c c' : Cursor}

theorem parseInputs_eq_ok {single : Bool} {rounds start : Nat} {rows : List InputRow}
    (h : parseInputs height txIndex single rounds (UInt32.ofNat start) c = .ok (rows, c')) :
    ∃ ins parts, ins.length = rounds ∧ List.Forall₂ InputBytes ins parts ∧
      c.Reads parts.flatten c' ∧
      rows = ins.mapIdx fun j => bareInputRow height txIndex single (start + j) := by
  induction rounds generalizing start c rows with
  | zero =>
      obtain ⟨rfl, rfl⟩ := Prod.mk.inj (Except.ok.inj h)
      exact ⟨[], [], rfl, .nil, .nil c, rfl⟩
  | succ rounds ih =>
      rw [parseInputs] at h
      obtain ⟨⟨prevTxid, c₁⟩, hprev, h⟩ := except_bind_eq_ok h
      obtain ⟨⟨prevVout, c₂⟩, hvout, h⟩ := except_bind_eq_ok h
      obtain ⟨⟨scriptLen, c₃⟩, hcount, h⟩ := except_bind_eq_ok h
      obtain ⟨c₄, hskip, h⟩ := except_bind_eq_ok h
      obtain ⟨⟨sequence, c₅⟩, hseq, h⟩ := except_bind_eq_ok h
      obtain ⟨⟨rest, c₆⟩, hrest, h⟩ := except_bind_eq_ok h
      obtain ⟨rfl, rfl⟩ := Prod.mk.inj (Except.ok.inj h)
      have hprev := Cursor.readArray_eq_ok (liftCursor_eq_ok hprev)
      have hvout := Cursor.readU32_eq_ok (liftCursor_eq_ok hvout)
      obtain ⟨hle, len, hlen, hcount⟩ := Cursor.readCount_eq_ok (liftCursor_eq_ok hcount)
      obtain ⟨script, hscript, hskip⟩ := Cursor.skip_eq_ok (liftCursor_eq_ok hskip)
      have hseq := Cursor.readU32_eq_ok (liftCursor_eq_ok hseq)
      rw [ofNat_succ_u32] at hrest
      obtain ⟨ins, parts, hins, hparts, hreads, rfl⟩ := ih hrest
      have hscriptLen : UInt32.ofNat script.length = scriptLen.toUInt32 :=
        ofNat_eq_toUInt32 hscript
      rw [← hscript] at hle hlen
      refine ⟨⟨prevTxid, prevVout, script, sequence⟩ :: ins, _ :: parts, by rw [List.length_cons, hins],
        .cons ⟨len, hlen, hle, rfl⟩ hparts, ?_, ?_⟩
      · have hall := hprev.trans (hvout.trans (hcount.trans (hskip.trans (hseq.trans hreads))))
        simpa [List.append_assoc] using hall
      · simp only [List.mapIdx_cons, bareInputRow, hscriptLen, Nat.add_zero,
          Nat.add_right_comm start 1]
        rfl

theorem parseOutputs_eq_ok {rounds start : Nat} {rows : List OutputRow}
    (h : parseOutputs D height txIndex rounds (UInt32.ofNat start) c = .ok (rows, c')) :
    ∃ outs parts, outs.length = rounds ∧ List.Forall₂ OutputBytes outs parts ∧
      c.Reads parts.flatten c' ∧
      rows = outs.mapIdx fun j => bareOutputRow D height txIndex (start + j) := by
  induction rounds generalizing start c rows with
  | zero =>
      obtain ⟨rfl, rfl⟩ := Prod.mk.inj (Except.ok.inj h)
      exact ⟨[], [], rfl, .nil, .nil c, rfl⟩
  | succ rounds ih =>
      rw [parseOutputs] at h
      obtain ⟨⟨value, c₁⟩, hvalue, h⟩ := except_bind_eq_ok h
      dsimp only at h
      by_cases hmoney : maxMoney < value.toNat
      · rw [if_pos hmoney] at h
        contradiction
      rw [if_neg hmoney] at h
      obtain ⟨⟨spkLen, c₂⟩, hcount, h⟩ := except_bind_eq_ok h
      obtain ⟨⟨spk, c₃⟩, hspk, h⟩ := except_bind_eq_ok h
      obtain ⟨⟨rest, c₄⟩, hrest, h⟩ := except_bind_eq_ok h
      obtain ⟨rfl, rfl⟩ := Prod.mk.inj (Except.ok.inj h)
      have hvalue := Cursor.readU64_eq_ok (liftCursor_eq_ok hvalue)
      obtain ⟨hle, len, hlen, hcount⟩ := Cursor.readCount_eq_ok (liftCursor_eq_ok hcount)
      obtain ⟨hspkLen, hspk⟩ := Cursor.readBytes_eq_ok (liftCursor_eq_ok hspk)
      rw [ofNat_succ_u32] at hrest
      obtain ⟨outs, parts, houts, hparts, hreads, rfl⟩ := ih hrest
      have hlen32 : UInt32.ofNat spk.length = spkLen.toUInt32 := ofNat_eq_toUInt32 hspkLen
      rw [← hspkLen] at hle hlen
      refine ⟨⟨value, spk⟩ :: outs, _ :: parts, by rw [List.length_cons, houts],
        .cons ⟨len, hlen, hle, Nat.le_of_not_lt hmoney, rfl⟩ hparts, ?_, ?_⟩
      · have hall := hvalue.trans (hcount.trans (hspk.trans hreads))
        simpa [List.append_assoc] using hall
      · simp only [List.mapIdx_cons, bareOutputRow, hlen32, Nat.add_zero,
          Nat.add_right_comm start 1]
        rfl

theorem readWitnessItems_eq_ok {rounds : Nat} {acc total : UInt32}
    (h : readWitnessItems rounds acc c = .ok (total, c')) :
    ∃ stack parts, stack.length = rounds ∧ List.Forall₂ ItemBytes stack parts ∧
      c.Reads parts.flatten c' ∧
      total = acc + UInt32.ofNat (stack.map List.length).sum := by
  induction rounds generalizing acc c with
  | zero =>
      obtain ⟨rfl, rfl⟩ := Prod.mk.inj (Except.ok.inj h)
      exact ⟨[], [], rfl, .nil, .nil c, (UInt32.add_zero _).symm⟩
  | succ rounds ih =>
      rw [readWitnessItems] at h
      obtain ⟨⟨itemLen, c₁⟩, hcount, h⟩ := except_bind_eq_ok h
      obtain ⟨c₂, hskip, h⟩ := except_bind_eq_ok h
      obtain ⟨hle, len, hlen, hcount⟩ := Cursor.readCount_eq_ok (liftCursor_eq_ok hcount)
      obtain ⟨item, hitem, hskip⟩ := Cursor.skip_eq_ok (liftCursor_eq_ok hskip)
      obtain ⟨stack, parts, hstack, hparts, hreads, rfl⟩ := ih h
      have hlen32 : UInt32.ofNat item.length = itemLen.toUInt32 := ofNat_eq_toUInt32 hitem
      rw [← hitem] at hle hlen
      refine ⟨item :: stack, _ :: parts, by rw [List.length_cons, hstack],
        .cons ⟨len, hlen, hle, rfl⟩ hparts, ?_, ?_⟩
      · have hall := hcount.trans (hskip.trans hreads)
        simpa [List.append_assoc] using hall
      · rw [List.map_cons, List.sum_cons, UInt32.ofNat_add, hlen32, UInt32.add_assoc]

theorem readWitnesses_eq_ok {inputs rows : List InputRow}
    (h : readWitnesses inputs c = .ok (rows, c')) :
    ∃ witnesses parts, witnesses.length = inputs.length ∧
      List.Forall₂ StackBytes witnesses parts ∧ c.Reads parts.flatten c' ∧
      rows = List.zipWith withWitness inputs witnesses := by
  induction inputs generalizing c rows with
  | nil =>
      obtain ⟨rfl, rfl⟩ := Prod.mk.inj (Except.ok.inj h)
      exact ⟨[], [], rfl, .nil, .nil c, rfl⟩
  | cons inp inputs ih =>
      rw [readWitnesses] at h
      obtain ⟨⟨itemCount, c₁⟩, hcount, h⟩ := except_bind_eq_ok h
      obtain ⟨⟨witnessBytes, c₂⟩, hitems, h⟩ := except_bind_eq_ok h
      obtain ⟨⟨rest, c₃⟩, hrest, h⟩ := except_bind_eq_ok h
      obtain ⟨rfl, rfl⟩ := Prod.mk.inj (Except.ok.inj h)
      obtain ⟨hle, count, hcountBytes, hcount⟩ := Cursor.readCount_eq_ok (liftCursor_eq_ok hcount)
      obtain ⟨stack, parts, hstack, hparts, hreads, rfl⟩ := readWitnessItems_eq_ok hitems
      obtain ⟨witnesses, parts', hwitnesses, hparts', hreads', rfl⟩ := ih hrest
      have hlen32 : UInt32.ofNat stack.length = itemCount.toUInt32 := ofNat_eq_toUInt32 hstack
      rw [← hstack] at hle hcountBytes
      refine ⟨stack :: witnesses, _ :: parts', by rw [List.length_cons, hwitnesses]; rfl,
        .cons ⟨count, parts, hcountBytes, hle, hparts, rfl⟩ hparts', ?_, ?_⟩
      · have hall := hcount.trans (hreads.trans hreads')
        simpa [List.append_assoc] using hall
      · rw [List.zipWith_cons_cons, withWitness, hlen32]

end Loops

/-! ## Serialized transactions -/

/-- A transaction with the spelling of its parts. -/
structure SpelledTx where
  tx : WireTx
  inputCount : List UInt8
  inputs : List (List UInt8)
  outputCount : List UInt8
  outputs : List (List UInt8)
  witnesses : List (List UInt8)
  inputCount_spells : CountBytes tx.inputs.length inputCount
  inputs_lt : tx.inputs.length < 2 ^ 32
  inputs_spell : List.Forall₂ InputBytes tx.inputs inputs
  outputCount_spells : CountBytes tx.outputs.length outputCount
  outputs_le : tx.outputs.length ≤ Cursor.maxItems
  outputs_spell : List.Forall₂ OutputBytes tx.outputs outputs
  /-- A legacy count does not begin like the segwit marker. -/
  legacy : tx.witness = none → inputCount.head? ≠ some 0x00
  segwit : ∀ w ∈ tx.witness, w.flag ≠ 0 ∧ w.witnesses.length = tx.inputs.length ∧
    List.Forall₂ StackBytes w.witnesses witnesses

namespace SpelledTx

/-- Count and inputs, count and outputs. -/
def body (s : SpelledTx) : List UInt8 :=
  s.inputCount ++ (s.inputs.flatten ++ (s.outputCount ++ s.outputs.flatten))

/-- The bytes the txid is taken of. -/
def stripped (s : SpelledTx) : List UInt8 :=
  toBytes 4 s.tx.version.toUInt32.toNat ++ (s.body ++ toBytes 4 s.tx.locktime.toNat)

/-- The bytes of the transaction in the block. -/
def bytes (s : SpelledTx) : List UInt8 :=
  match s.tx.witness with
  | none => s.stripped
  | some w =>
      toBytes 4 s.tx.version.toUInt32.toNat ++
        (0x00 :: w.flag :: (s.body ++ (s.witnesses.flatten ++ toBytes 4 s.tx.locktime.toNat)))

def txid (D : Digests) (s : SpelledTx) : Bytes 32 := dsha256 D s.stripped

/-- BIP141 weight. -/
def weight (s : SpelledTx) : Nat := 3 * s.stripped.length + s.bytes.length

def inputRow (D : Digests) (height : UInt32) (index : Nat) (s : SpelledTx) (j : Nat)
    (i : WireInput) : InputRow :=
  { s.tx.inputRow D height index j i with txid := s.txid D }

def outputRow (D : Digests) (height : UInt32) (index : Nat) (s : SpelledTx) (j : Nat)
    (o : WireOutput) : OutputRow :=
  { s.tx.outputRow D height index j o with txid := s.txid D }

def txRow (D : Digests) (height : UInt32) (index : Nat) (s : SpelledTx) : TxRow :=
  { s.tx.txRow D height index with
    txid := s.txid D
    size := UInt32.ofNat s.bytes.length
    weight := UInt32.ofNat s.weight }

/-- The rows of the transaction at position `index`. -/
def rows (D : Digests) (height : UInt32) (index : Nat) (s : SpelledTx) : ParsedTx where
  tx := s.txRow D height index
  inputs := s.tx.inputs.mapIdx (s.inputRow D height index)
  outputs := s.tx.outputs.mapIdx (s.outputRow D height index)

end SpelledTx

section Transaction

variable {D : Digests} {c c' : Cursor}

theorem readInputCount_segwit_eq_ok {txIndex : UInt32} {n : UInt64}
    (h : readInputCount 0x00 txIndex c = .ok (n, c')) :
    ∃ flag bs, flag ≠ 0 ∧ n.toNat ≤ Cursor.maxItems ∧ CountBytes n.toNat bs ∧
      c.Reads ([flag] ++ bs) c' := by
  rw [readInputCount, if_pos rfl] at h
  obtain ⟨⟨flag, c₁⟩, hflag, h⟩ := except_bind_eq_ok h
  dsimp only at h
  by_cases hzero : flag = 0
  · rw [if_pos hzero] at h
    contradiction
  · rw [if_neg hzero] at h
    obtain ⟨hle, bs, hbs, hreads⟩ := Cursor.readCount_eq_ok (liftCursor_eq_ok h)
    exact ⟨flag, bs, hzero, hle, hbs, (Cursor.readU8_eq_ok (liftCursor_eq_ok hflag)).trans hreads⟩

/-- Every form of the inline count fits `u32`: the four-byte form by its width, the
eight-byte form by its bound. -/
theorem readInputCount_legacy_eq_ok {c₀ : Cursor} {marker : UInt8} {txIndex : UInt32} {n : UInt64}
    (hmarker : marker ≠ 0x00) (hread : c₀.Reads [marker] c)
    (h : readInputCount marker txIndex c = .ok (n, c')) :
    ∃ bs, n.toNat < 2 ^ 32 ∧ CountBytes n.toNat bs ∧ bs.head? = some marker ∧ c₀.Reads bs c' := by
  rw [readInputCount, if_neg hmarker] at h
  by_cases hone : marker ≤ 0xfc
  · rw [if_pos hone] at h
    obtain ⟨rfl, rfl⟩ := Prod.mk.inj (Except.ok.inj h)
    rw [UInt8.toNat_toUInt64]
    have hlt := marker.toNat_lt
    exact ⟨_, by omega, .one marker hone, rfl, hread⟩
  rw [if_neg hone] at h
  by_cases htwo : marker = 0xfd
  · rw [if_pos htwo] at h
    obtain ⟨⟨v, c₁⟩, hword, h⟩ := except_bind_eq_ok h
    obtain ⟨rfl, rfl⟩ := Prod.mk.inj (Except.ok.inj h)
    rw [UInt16.toNat_toUInt64]
    have hlt := v.toNat_lt
    subst htwo
    exact ⟨_, by omega, .two v, rfl,
      hread.trans (Cursor.readU16_eq_ok (liftCursor_eq_ok hword))⟩
  rw [if_neg htwo] at h
  by_cases hfour : marker = 0xfe
  · rw [if_pos hfour] at h
    obtain ⟨⟨v, c₁⟩, hword, h⟩ := except_bind_eq_ok h
    obtain ⟨rfl, rfl⟩ := Prod.mk.inj (Except.ok.inj h)
    rw [UInt32.toNat_toUInt64]
    subst hfour
    exact ⟨_, v.toNat_lt, .four v, rfl,
      hread.trans (Cursor.readU32_eq_ok (liftCursor_eq_ok hword))⟩
  rw [if_neg hfour] at h
  have height : marker = 0xff := eq_ff_of_ne hone htwo hfour
  obtain ⟨⟨v, c₁⟩, hword, h⟩ := except_bind_eq_ok h
  dsimp only at h
  by_cases hlarge : 4000000 < v.toNat
  · rw [if_pos hlarge] at h
    contradiction
  · rw [if_neg hlarge] at h
    obtain ⟨rfl, rfl⟩ := Prod.mk.inj (Except.ok.inj h)
    subst height
    exact ⟨_, by omega, .eight v, rfl,
      hread.trans (Cursor.readU64_eq_ok (liftCursor_eq_ok hword))⟩

/-- The coinbase test of the loop, from the count as it was read. -/
theorem coinbase_flag_of_single (tx : WireTx) {single : Bool}
    (hsingle : single = decide (tx.inputs.length = 1)) {j : Nat} (hj : j < tx.inputs.length)
    (i : WireInput) :
    (single && UInt32.ofNat j == 0 && decide (i.prevTxid = zeroBytes 32) &&
      i.prevVout == 0xFFFFFFFF) = decide (tx.IsCoinbaseInput i) := by
  subst hsingle
  by_cases h1 : tx.inputs.length = 1
  · obtain rfl : j = 0 := by omega
    simp [h1, WireTx.IsCoinbaseInput, Bool.decide_and]
    rfl
  · simp [h1, WireTx.IsCoinbaseInput]

theorem SpelledTx.inputs_filled_legacy (s : SpelledTx) (hw : s.tx.witness = none) {single : Bool}
    (hsingle : single = decide (s.tx.inputs.length = 1)) (height : UInt32) (index : Nat) :
    ((s.tx.inputs.mapIdx fun j => bareInputRow height (UInt32.ofNat index) single (0 + j)).map
        fun inp => { inp with txid := s.txid D }) =
      s.tx.inputs.mapIdx (s.inputRow D height index) := by
  apply List.ext_getElem
  · simp
  · intro j h₁ h₂
    have hj : j < s.tx.inputs.length := by simpa using h₂
    simp only [List.getElem_map, List.getElem_mapIdx, Nat.zero_add, bareInputRow,
      SpelledTx.inputRow, WireTx.inputRow, coinbase_flag_of_single s.tx hsingle hj, WireTx.stack,
      hw, List.length_nil, List.map_nil, List.sum_nil]
    rfl

theorem SpelledTx.inputs_filled_segwit (s : SpelledTx) {w : WireWitness}
    (hw : s.tx.witness = some w) {single : Bool}
    (hsingle : single = decide (s.tx.inputs.length = 1)) (height : UInt32) (index : Nat) :
    ((List.zipWith withWitness (s.tx.inputs.mapIdx fun j =>
      bareInputRow height (UInt32.ofNat index) single (0 + j)) w.witnesses).map
        fun inp => { inp with txid := s.txid D }) =
      s.tx.inputs.mapIdx (s.inputRow D height index) := by
  have hlen := (s.segwit w hw).2.1
  apply List.ext_getElem
  · simp [hlen]
  · intro j h₁ h₂
    have hj : j < s.tx.inputs.length := by simpa using h₂
    have hjw : j < w.witnesses.length := by omega
    have hstack : s.tx.stack j = w.witnesses[j] := by
      simp [WireTx.stack, hw, hjw]
    simp only [List.getElem_map, List.getElem_zipWith, List.getElem_mapIdx, Nat.zero_add,
      withWitness, bareInputRow, SpelledTx.inputRow, WireTx.inputRow,
      coinbase_flag_of_single s.tx hsingle hj, hstack, UInt32.zero_add]

theorem SpelledTx.outputs_filled (s : SpelledTx) (height : UInt32) (index : Nat) :
    ((s.tx.outputs.mapIdx fun j => bareOutputRow D height (UInt32.ofNat index) (0 + j)).map
        fun out => { out with txid := s.txid D }) =
      s.tx.outputs.mapIdx (s.outputRow D height index) := by
  apply List.ext_getElem
  · simp
  · intro j h₁ h₂
    simp only [List.getElem_map, List.getElem_mapIdx, Nat.zero_add, bareOutputRow,
      SpelledTx.outputRow, WireTx.outputRow]

/-- The bytes between two cursors, cut from the block by their positions. -/
theorem Cursor.Reads.slice {bs : List UInt8} (h : c.Reads bs c') :
    slice c.data c.pos c'.pos = bs := by
  rw [h.pos]
  exact slice_rest h.rest

theorem Cursor.Reads.length_eq {bs : List UInt8} (h : c.Reads bs c') :
    c'.pos - c.pos = bs.length := by
  rw [h.pos, Nat.add_sub_cancel_left]

/-- The code leaves marker, flag and witnesses out of what it hashes: version and body come from
one slice, the locktime from the last four bytes. -/
theorem SpelledTx.stripped_of_segwit {s : SpelledTx} {flag : UInt8} {witnesses : List UInt8}
    {c₁ c₂ c₃ : Cursor}
    (hfront : c.Reads (toBytes 4 s.tx.version.toUInt32.toNat ++ (0x00 :: flag :: s.body)) c₁)
    (hwitnesses : c₁.Reads witnesses c₂)
    (hlock : c₂.Reads (toBytes 4 s.tx.locktime.toNat) c₃) :
    (slice c.data c.pos c₁.pos).take 4 ++ (slice c.data c.pos c₁.pos).drop 6 ++
      slice c.data (c₃.pos - 4) c₃.pos = s.stripped := by
  have hlockPos : c₃.pos - 4 = c₂.pos := by
    rw [hlock.pos, length_toBytes, Nat.add_sub_cancel]
  have hlockSlice : slice c.data c₂.pos c₃.pos = toBytes 4 s.tx.locktime.toNat := by
    rw [← (hfront.trans hwitnesses).data]
    exact hlock.slice
  have hdrop : (toBytes 4 s.tx.version.toUInt32.toNat ++ (0x00 :: flag :: s.body)).drop 6 =
      s.body := by
    rw [List.drop_append, length_toBytes, List.drop_of_length_le (by simp)]
    rfl
  rw [hlockPos, hlockSlice, hfront.slice, hdrop, List.take_left' (length_toBytes _ _),
    List.append_assoc]
  rfl

theorem decide_eq_one {n : UInt64} {k : Nat} (h : n.toNat = k) :
    decide (n = 1) = decide (k = 1) := by
  rw [decide_eq_decide, ← UInt64.toNat_inj, h]
  rfl

/-- What `parse_tx` took for a transaction. -/
theorem parseTx_eq_ok {height : UInt32} {index : Nat} {p : ParsedTx}
    (h : parseTx D c c.data height (UInt32.ofNat index) = .ok (p, c')) :
    ∃ s : SpelledTx, c.Reads s.bytes c' ∧ p = s.rows D height index := by
  rw [parseTx] at h
  obtain ⟨⟨version, c₁⟩, hversion, h⟩ := except_bind_eq_ok h
  obtain ⟨⟨marker, c₂⟩, hmarker, h⟩ := except_bind_eq_ok h
  obtain ⟨⟨inputCount, c₃⟩, hcount, h⟩ := except_bind_eq_ok h
  obtain ⟨⟨inputs, c₄⟩, hinputs, h⟩ := except_bind_eq_ok h
  obtain ⟨⟨outputCount, c₅⟩, houtCount, h⟩ := except_bind_eq_ok h
  obtain ⟨⟨outputs, c₆⟩, houtputs, h⟩ := except_bind_eq_ok h
  have hversion := Cursor.readI32_eq_ok (liftCursor_eq_ok hversion)
  have hmarker := Cursor.readU8_eq_ok (liftCursor_eq_ok hmarker)
  obtain ⟨ins, inParts, hins, hinParts, hinReads, rfl⟩ := @parseInputs_eq_ok _ _ _ _ _ _ 0 _ hinputs
  obtain ⟨houtLe, outCount, houtBytes, houtCount⟩ :=
    Cursor.readCount_eq_ok (liftCursor_eq_ok houtCount)
  obtain ⟨outs, outParts, houts, houtParts, houtReads, rfl⟩ :=
    @parseOutputs_eq_ok _ _ _ _ _ _ 0 _ houtputs
  have houtLen : outs.length = outputCount.toNat :=
    houts.trans (toNat_toUInt32_of_lt (lt_of_le_maxItems houtLe))
  have hout32 : UInt32.ofNat outs.length = outputCount.toUInt32 := ofNat_eq_toUInt32 houtLen
  rw [← houtLen] at houtLe houtBytes
  by_cases hzero : marker = 0x00
  · -- Segwit: the flag and the count follow, and the witnesses before the locktime.
    subst hzero
    obtain ⟨flag, inCount, hflag, hinLe, hinBytes, hinCount⟩ :=
      readInputCount_segwit_eq_ok hcount
    have hinLen : ins.length = inputCount.toNat :=
      hins.trans (toNat_toUInt32_of_lt (lt_of_le_maxItems hinLe))
    have hin32 : UInt32.ofNat ins.length = inputCount.toUInt32 := ofNat_eq_toUInt32 hinLen
    simp only [decide_true, if_true] at h
    obtain ⟨⟨witnessed, c₇⟩, hwitnessed, h⟩ := except_bind_eq_ok h
    obtain ⟨⟨locktime, c₈⟩, hlock, h⟩ := except_bind_eq_ok h
    obtain ⟨rfl, rfl⟩ := Prod.mk.inj (Except.ok.inj h)
    obtain ⟨witnesses, witParts, hwitLen, hwitParts, hwitReads, rfl⟩ :=
      readWitnesses_eq_ok hwitnessed
    have hlock := Cursor.readU32_eq_ok (liftCursor_eq_ok hlock)
    rw [List.length_mapIdx] at hwitLen
    rw [← hinLen] at hinLe hinBytes
    let s : SpelledTx := {
      tx := ⟨version, ins, outs, locktime, some ⟨flag, witnesses⟩⟩
      inputCount := inCount
      inputs := inParts
      outputCount := outCount
      outputs := outParts
      witnesses := witParts
      inputCount_spells := hinBytes
      inputs_lt := lt_of_le_maxItems hinLe
      inputs_spell := hinParts
      outputCount_spells := houtBytes
      outputs_le := houtLe
      outputs_spell := houtParts
      legacy := fun hnone => absurd hnone (by simp)
      segwit := by
        rintro w hw
        obtain rfl := Option.some.inj hw
        exact ⟨hflag, hwitLen, hwitParts⟩ }
    have hfront : c.Reads (toBytes 4 version.toUInt32.toNat ++ (0x00 :: flag :: s.body)) c₆ := by
      have hall := hversion.trans (hmarker.trans (hinCount.trans (hinReads.trans
        (houtCount.trans houtReads))))
      simpa [SpelledTx.body, s, List.append_assoc] using hall
    have hbytes : c.Reads s.bytes c₈ := by
      have hall := hfront.trans (hwitReads.trans hlock)
      simpa [SpelledTx.bytes, s, List.append_assoc] using hall
    have hstripped : (slice c.data c.pos c₆.pos).take 4 ++ (slice c.data c.pos c₆.pos).drop 6 ++
        slice c.data (c₈.pos - 4) c₈.pos = s.stripped :=
      SpelledTx.stripped_of_segwit hfront hwitReads hlock
    have hstrippedLen : c₆.pos - c.pos - 2 + 4 = s.stripped.length := by
      rw [hfront.length_eq]
      simp [SpelledTx.stripped]
    have htotal : c₈.pos - c.pos = s.bytes.length := hbytes.length_eq
    have hin := s.inputs_filled_segwit (D := D) rfl (decide_eq_one hinLen.symm) height index
    have hout := s.outputs_filled (D := D) height index
    refine ⟨s, hbytes, ?_⟩
    rw [SpelledTx.rows, ← hin, ← hout, SpelledTx.txRow, SpelledTx.txid, SpelledTx.weight,
      WireTx.txRow, ← hstrippedLen, ← htotal, ← hstripped, Nat.mul_comm 3]
    simp only [s, hin32, hout32]
    rfl
  · -- Legacy: the byte read as the marker is the first of the count.
    obtain ⟨inCount, hinLt, hinBytes, hhead, hinCount⟩ :=
      readInputCount_legacy_eq_ok hzero hmarker hcount
    have hinLen : ins.length = inputCount.toNat := hins.trans (toNat_toUInt32_of_lt hinLt)
    have hin32 : UInt32.ofNat ins.length = inputCount.toUInt32 := ofNat_eq_toUInt32 hinLen
    simp only [hzero, decide_false, Bool.false_eq_true, if_false] at h
    obtain ⟨⟨plain, c₇⟩, hplain, h⟩ := except_bind_eq_ok h
    obtain ⟨⟨locktime, c₈⟩, hlock, h⟩ := except_bind_eq_ok h
    obtain ⟨rfl, rfl⟩ := Prod.mk.inj (Except.ok.inj hplain)
    obtain ⟨rfl, rfl⟩ := Prod.mk.inj (Except.ok.inj h)
    have hlock := Cursor.readU32_eq_ok (liftCursor_eq_ok hlock)
    rw [← hinLen] at hinLt hinBytes
    let s : SpelledTx := {
      tx := ⟨version, ins, outs, locktime, none⟩
      inputCount := inCount
      inputs := inParts
      outputCount := outCount
      outputs := outParts
      witnesses := []
      inputCount_spells := hinBytes
      inputs_lt := hinLt
      inputs_spell := hinParts
      outputCount_spells := houtBytes
      outputs_le := houtLe
      outputs_spell := houtParts
      legacy := fun _ hfirst => hzero (Option.some.inj (hhead.symm.trans hfirst))
      segwit := by simp }
    have hbytes : c.Reads s.bytes c₈ := by
      have hall := hversion.trans (hinCount.trans (hinReads.trans
        (houtCount.trans (houtReads.trans hlock))))
      simpa [SpelledTx.bytes, SpelledTx.stripped, SpelledTx.body, s, List.append_assoc] using hall
    have hstripped : slice c.data c.pos c₈.pos = s.stripped := hbytes.slice
    have htotal : c₈.pos - c.pos = s.bytes.length := hbytes.length_eq
    have hstrippedLen : c₈.pos - c.pos = s.stripped.length := htotal
    have hin := s.inputs_filled_legacy (D := D) rfl (decide_eq_one hinLen.symm) height index
    have hout := s.outputs_filled (D := D) height index
    refine ⟨s, hbytes, ?_⟩
    rw [SpelledTx.rows, ← hin, ← hout, SpelledTx.txRow, SpelledTx.txid, SpelledTx.weight,
      WireTx.txRow, ← hstrippedLen, ← htotal, ← hstripped, Nat.mul_comm 3]
    simp only [s, hin32, hout32]
    rfl

theorem parseTxs_eq_ok {height : UInt32} {rounds start : Nat} {parsed : List ParsedTx}
    (h : parseTxs D c.data height rounds (UInt32.ofNat start) c = .ok (parsed, c')) :
    ∃ txs : List SpelledTx, txs.length = rounds ∧
      c.Reads (txs.map SpelledTx.bytes).flatten c' ∧
      parsed = txs.mapIdx fun i => SpelledTx.rows D height (start + i) := by
  induction rounds generalizing start c parsed with
  | zero =>
      obtain ⟨rfl, rfl⟩ := Prod.mk.inj (Except.ok.inj h)
      exact ⟨[], rfl, .nil c, rfl⟩
  | succ rounds ih =>
      rw [parseTxs] at h
      obtain ⟨⟨tx, c₁⟩, htx, h⟩ := except_bind_eq_ok h
      obtain ⟨⟨rest, c₂⟩, hrest, h⟩ := except_bind_eq_ok h
      obtain ⟨rfl, rfl⟩ := Prod.mk.inj (Except.ok.inj h)
      obtain ⟨s, hreads, rfl⟩ := parseTx_eq_ok htx
      rw [ofNat_succ_u32, ← hreads.data] at hrest
      obtain ⟨txs, hlen, hreads', rfl⟩ := ih hrest
      refine ⟨s :: txs, by rw [List.length_cons, hlen], hreads.trans hreads', ?_⟩
      rw [List.mapIdx_cons]
      simp only [Nat.add_zero, Nat.add_right_comm start 1]
      rfl

end Transaction

/-! ## Serialized blocks -/

/-- A header, a count in some spelling and the transactions it counts. -/
structure SpelledBlock where
  header : Bytes blockHeaderLen
  txCount : List UInt8
  txs : List SpelledTx
  txCount_spells : CountBytes txs.length txCount
  txs_le : txs.length ≤ Cursor.maxItems

namespace SpelledBlock

def bytes (b : SpelledBlock) : List UInt8 :=
  b.header.toList ++ (b.txCount ++ (b.txs.map SpelledTx.bytes).flatten)

/-- The rows of all transactions. -/
def parsed (D : Digests) (height : UInt32) (b : SpelledBlock) : List ParsedTx :=
  b.txs.mapIdx (SpelledTx.rows D height)

end SpelledBlock

/-- The values of the outputs of the first transaction. -/
def coinbaseValues (parsed : List ParsedTx) : List UInt64 :=
  match parsed with
  | [] => []
  | first :: _ => first.outputs.map OutputRow.valueSat

/-- What an accepted payload was read as: a serialized block and what follows it, and the rows
the code makes of the block. -/
structure ReadAs (D : Digests) (payload : List UInt8) (height : UInt32) (block : FullBlock)
    (b : SpelledBlock) (rest : List UInt8) : Prop where
  payload_eq : payload = b.bytes ++ rest
  txs : block.txs = (b.parsed D height).map ParsedTx.tx
  inputs : block.inputs = ((b.parsed D height).map ParsedTx.inputs).flatten
  outputs : block.outputs = ((b.parsed D height).map ParsedTx.outputs).flatten
  txCount : block.blockRow.txCount = UInt32.ofNat b.txs.length
  size : block.blockRow.size = UInt32.ofNat payload.length
  weight : block.blockRow.weight = UInt32.ofNat
    (min ((block.txs.map fun tx => tx.weight.toUInt64).sum + 80 * 4).toNat 0xFFFFFFFF)
  coinbaseValue : block.blockRow.coinbaseValue = (coinbaseValues (b.parsed D height)).sum

/-- **Accepted payloads are serialized blocks**, with any bytes behind them. -/
theorem exists_readAs {D : Digests} {payload : List UInt8} {height : UInt32} {hash : Hash32}
    {header : BlockHeader} {block : FullBlock}
    (h : parseBlockFull D payload height hash header = .ok block) :
    ∃ b rest, ReadAs D payload height block b rest := by
  rw [parseBlockFull] at h
  obtain ⟨c₁, hskip, h⟩ := except_bind_eq_ok h
  obtain ⟨⟨txCount, c₂⟩, hcount, h⟩ := except_bind_eq_ok h
  obtain ⟨⟨parsed, c₃⟩, hparsed, h⟩ := except_bind_eq_ok h
  dsimp only at h
  split at h
  · contradiction
  obtain rfl := Except.ok.inj h
  obtain ⟨head, hhead, hskip⟩ := Cursor.skip_eq_ok (liftCursor_eq_ok hskip)
  obtain ⟨hle, count, hbytes, hcount⟩ := Cursor.readCount_eq_ok (liftCursor_eq_ok hcount)
  have hdata : c₂.data = payload := (hskip.trans hcount).data
  rw [← hdata] at hparsed
  obtain ⟨txs, htxs, hreads, rfl⟩ := @parseTxs_eq_ok _ _ _ _ _ 0 _ hparsed
  have htxsLen : txs.length = txCount.toNat :=
    htxs.trans (toNat_toUInt32_of_lt (lt_of_le_maxItems hle))
  rw [← htxsLen] at hle hbytes
  have hrest := (hskip.trans (hcount.trans hreads)).rest
  have hindex : (txs.mapIdx fun i => SpelledTx.rows D height (0 + i)) =
      txs.mapIdx (SpelledTx.rows D height) := by
    simp only [Nat.zero_add]
  refine ⟨⟨⟨head, hhead⟩, count, txs, hbytes, hle⟩, c₃.rest, ?_⟩
  constructor
  case payload_eq =>
    change payload.drop 0 = _ at hrest
    rw [List.drop_zero] at hrest
    exact hrest
  case txs => rw [SpelledBlock.parsed, hindex]
  case inputs => rw [SpelledBlock.parsed, hindex]
  case outputs => rw [SpelledBlock.parsed, hindex]
  case txCount =>
    change txCount.toUInt32 = UInt32.ofNat txs.length
    exact (ofNat_eq_toUInt32 htxsLen).symm
  case size => rfl
  case weight => rw [List.map_map]; rfl
  case coinbaseValue =>
    rw [SpelledBlock.parsed, hindex]
    generalize txs.mapIdx (SpelledTx.rows D height) = parsed
    cases parsed <;> rfl

end Bidx
