import Bidx.Core.ScriptBounds
import Bidx.Parser.Accepted

/-!
# Every slice of the parser is in range

The parser once more, with each slice, index, copy and `usize` difference as the
machine makes it: out of range is a panic, told apart from the parser's own
errors.  The cursor's position never passes the end of the data, and each read is
preceded by the check it needs; so the checked parser runs like the plain one on
every payload, and never panics.
-/

namespace Bidx

open LittleEndian

/-- An access, `none` being out of range. -/
def orPanic {ε α : Type} : Option α → Except (Stop ε) α
  | some a => .ok a
  | none => .error .panic

/-- A run that cannot panic. -/
def unchecked {ε α : Type} (x : Except ε α) : Except (Stop ε) α := x.mapError Stop.error

namespace Cursor

def remainingChecked (c : Cursor) : Except (Stop ParseError) Nat :=
  orPanic (subChecked c.data.length c.pos)

def needChecked (c : Cursor) (n : Nat) : Except (Stop ParseError) Unit := do
  let remaining ← c.remainingChecked
  if remaining < n then throw (.error (.eof c.pos n remaining)) else pure ()

def readBytesChecked (c : Cursor) (n : Nat) : Except (Stop ParseError) (List UInt8 × Cursor) := do
  c.needChecked n
  let bs ← orPanic (sliceChecked c.data c.pos (c.pos + n))
  pure (bs, c.advance n)

def skipChecked (c : Cursor) (n : Nat) : Except (Stop ParseError) Cursor := do
  c.needChecked n
  pure (c.advance n)

/-- The slice is copied into an array of its length. -/
def readArrayChecked (c : Cursor) (n : Nat) : Except (Stop ParseError) (Bytes n × Cursor) := do
  c.needChecked n
  let bs ← orPanic (sliceChecked c.data c.pos (c.pos + n))
  let copied ← orPanic (copyChecked n bs)
  pure (arrayAt n copied 0, c.advance n)

def readU8Checked (c : Cursor) : Except (Stop ParseError) (UInt8 × Cursor) := do
  c.needChecked 1
  let b ← orPanic c.data[c.pos]?
  pure (b, c.advance 1)

/-- A little-endian word of `n` bytes; the reader over the slice is unwrapped. -/
def readWordChecked (c : Cursor) (n : Nat) : Except (Stop ParseError) (Nat × Cursor) := do
  c.needChecked n
  let bs ← orPanic (sliceChecked c.data c.pos (c.pos + n))
  let word ← orPanic (copyChecked n bs)
  pure (ofBytes word, c.advance n)

def readU16Checked (c : Cursor) : Except (Stop ParseError) (UInt16 × Cursor) := do
  let (n, c) ← c.readWordChecked 2
  pure (UInt16.ofNat n, c)

def readU32Checked (c : Cursor) : Except (Stop ParseError) (UInt32 × Cursor) := do
  let (n, c) ← c.readWordChecked 4
  pure (UInt32.ofNat n, c)

def readI32Checked (c : Cursor) : Except (Stop ParseError) (Int32 × Cursor) := do
  let (n, c) ← c.readWordChecked 4
  pure ((UInt32.ofNat n).toInt32, c)

def readU64Checked (c : Cursor) : Except (Stop ParseError) (UInt64 × Cursor) := do
  let (n, c) ← c.readWordChecked 8
  pure (UInt64.ofNat n, c)

def readVarintChecked (c : Cursor) : Except (Stop ParseError) (UInt64 × Cursor) := do
  let start := c.pos
  let (first, c) ← c.readU8Checked
  if first ≤ 0xfc then
    pure (first.toUInt64, c)
  else if first = 0xfd then
    let (v, c) ← c.readU16Checked
    pure (v.toUInt64, c)
  else if first = 0xfe then
    let (v, c) ← c.readU32Checked
    pure (v.toUInt64, c)
  else
    match c.readU64Checked with
    | .ok r => pure r
    | .error (.error _) => throw (.error (.badVarInt start))
    | .error .panic => throw .panic

def readCountChecked (c : Cursor) : Except (Stop ParseError) (UInt64 × Cursor) := do
  let (n, c) ← c.readVarintChecked
  if maxItems < n.toNat then
    throw (.error (.countOverflow n c.pos))
  else
    pure (n, c)

/-! ## The reads -/

/-- The position is inside the data or at its end. -/
def InBounds (c : Cursor) : Prop := c.pos ≤ c.data.length

variable {c c' : Cursor} {bs : List UInt8}

theorem Reads.inBounds (h : c.Reads bs c') (hc : c.InBounds) : c'.InBounds := by
  have hlen := congrArg List.length h.rest
  unfold InBounds at hc ⊢
  rw [h.pos, h.data]
  simp only [Cursor.rest, List.length_append, List.length_drop] at hlen
  omega

end Cursor

section Steps

variable {ε α β : Type}

@[simp] theorem unchecked_ok (a : α) : unchecked (.ok a : Except ε α) = .ok a := rfl

@[simp] theorem unchecked_error (e : ε) : unchecked (.error e : Except ε α) = .error (.error e) :=
  rfl

/-- One step of a checked run: the step agrees, and what follows agrees where it goes on. -/
theorem checked_bind {x' : Except (Stop ε) α} {x : Except ε α} {f' : α → Except (Stop ε) β}
    {f : α → Except ε β} (hx : x' = unchecked x)
    (hf : ∀ a, x = .ok a → f' a = unchecked (f a)) : (x' >>= f') = unchecked (x >>= f) := by
  subst hx
  cases x with
  | error e => rfl
  | ok a => exact hf a rfl

/-- A step one of two ways, the same code following both. -/
theorem checked_branch {b : Bool} {x' y' : Except (Stop ε) α} {x y : Except ε α}
    {f' : α → Except (Stop ε) β} {f : α → Except ε β}
    (hx : (if b then x' else y') = unchecked (if b then x else y))
    (hf : ∀ a, (if b then x else y) = .ok a → f' a = unchecked (f a)) :
    (if b then x' >>= f' else y' >>= f') = unchecked (if b then x >>= f else y >>= f) := by
  cases b with
  | false => exact checked_bind hx hf
  | true => exact checked_bind hx hf

end Steps

namespace Cursor

variable {c : Cursor}

theorem remainingChecked_eq (hc : c.InBounds) : c.remainingChecked = .ok c.remaining := by
  rw [remainingChecked, subChecked_of_le hc]
  rfl

theorem needChecked_eq (hc : c.InBounds) (n : Nat) : c.needChecked n = unchecked (c.need n) := by
  rw [needChecked, remainingChecked_eq hc, ok_bind, need]
  split <;> rfl

theorem sliceChecked_eq (hc : c.InBounds) {n : Nat} (hn : n ≤ c.rest.length) :
    sliceChecked c.data c.pos (c.pos + n) = some (c.rest.take n) := by
  have hle : c.pos + n ≤ c.data.length := by
    unfold InBounds at hc
    simp only [Cursor.rest, List.length_drop] at hn
    omega
  rw [sliceChecked_of_le (Nat.le_add_right _ _) hle, Nat.add_sub_cancel_left]
  rfl

theorem readBytesChecked_eq (hc : c.InBounds) (n : Nat) :
    c.readBytesChecked n = unchecked (c.readBytes n) := by
  refine checked_bind (needChecked_eq hc n) fun _ hneed => ?_
  rw [sliceChecked_eq hc (need_eq_ok hneed)]
  rfl

theorem skipChecked_eq (hc : c.InBounds) (n : Nat) : c.skipChecked n = unchecked (c.skip n) :=
  checked_bind (needChecked_eq hc n) fun _ _ => rfl

theorem copyChecked_take {n : Nat} (hn : n ≤ c.rest.length) :
    copyChecked n (c.rest.take n) = some (c.rest.take n) :=
  if_pos (List.length_take_of_le hn)

theorem readArrayChecked_eq (hc : c.InBounds) (n : Nat) :
    c.readArrayChecked n = unchecked (c.readArray n) := by
  refine checked_bind (needChecked_eq hc n) fun _ hneed => ?_
  have hn := need_eq_ok hneed
  have harray : arrayAt n (c.rest.take n) 0 = arrayAt n c.data c.pos := by
    apply List.Vector.toList_injective
    rw [arrayAt_toList hn, arrayAt_toList (by simpa using hn), List.drop_zero, List.take_take,
      Nat.min_self]
    rfl
  rw [sliceChecked_eq hc hn]
  change (orPanic (copyChecked n (c.rest.take n)) >>= _) = _
  rw [copyChecked_take hn]
  change Except.ok (arrayAt n (c.rest.take n) 0, _) = _
  rw [harray]
  rfl

theorem readU8Checked_eq (hc : c.InBounds) : c.readU8Checked = unchecked c.readU8 := by
  have hread : c.readU8 = (c.need 1 >>= fun _ => pure ((c.rest.take 1).headD 0, c.advance 1)) := by
    rw [readU8, readBytes]
    cases c.need 1 <;> rfl
  rw [hread]
  refine checked_bind (needChecked_eq hc 1) fun _ hneed => ?_
  have hn := need_eq_ok hneed
  have hpos : c.pos < c.data.length := by
    simp only [Cursor.rest, List.length_drop] at hn
    omega
  have hhead : (c.rest.take 1).headD 0 = c.data[c.pos] := by
    rw [Cursor.rest, List.drop_eq_getElem_cons hpos]
    rfl
  rw [List.getElem?_eq_getElem hpos, hhead]
  rfl

/-- A word read with the checks is the word of the bytes read without them. -/
theorem readWordChecked_eq (hc : c.InBounds) (n : Nat) :
    c.readWordChecked n =
      unchecked (c.readBytes n >>= fun r => pure (ofBytes r.1, r.2)) := by
  have hread : (c.readBytes n >>= fun r => pure (ofBytes r.1, r.2)) =
      (c.need n >>= fun _ => (pure (ofBytes (c.rest.take n), c.advance n) :
        Except ParseError (Nat × Cursor))) := by
    rw [readBytes]
    cases c.need n <;> rfl
  rw [hread]
  refine checked_bind (needChecked_eq hc n) fun _ hneed => ?_
  have hn := need_eq_ok hneed
  rw [sliceChecked_eq hc hn]
  change (orPanic (copyChecked n (c.rest.take n)) >>= _) = _
  rw [copyChecked_take hn]
  rfl

theorem readU16Checked_eq (hc : c.InBounds) : c.readU16Checked = unchecked c.readU16 := by
  rw [readU16Checked, readWordChecked_eq hc, readU16]
  cases c.readBytes 2 <;> rfl

theorem readU32Checked_eq (hc : c.InBounds) : c.readU32Checked = unchecked c.readU32 := by
  rw [readU32Checked, readWordChecked_eq hc, readU32]
  cases c.readBytes 4 <;> rfl

theorem readI32Checked_eq (hc : c.InBounds) : c.readI32Checked = unchecked c.readI32 := by
  rw [readI32Checked, readWordChecked_eq hc, readI32, readU32]
  cases c.readBytes 4 <;> rfl

theorem readU64Checked_eq (hc : c.InBounds) : c.readU64Checked = unchecked c.readU64 := by
  rw [readU64Checked, readWordChecked_eq hc, readU64]
  cases c.readBytes 8 <;> rfl

theorem readVarintChecked_eq (hc : c.InBounds) :
    c.readVarintChecked = unchecked c.readVarint := by
  refine checked_bind (readU8Checked_eq hc) fun r hr => ?_
  obtain ⟨first, c₁⟩ := r
  have hc₁ := (readU8_eq_ok hr).inBounds hc
  dsimp only
  by_cases hone : first ≤ 0xfc
  · simp only [if_pos hone]
    rfl
  simp only [if_neg hone]
  by_cases htwo : first = 0xfd
  · simp only [if_pos htwo]
    exact checked_bind (readU16Checked_eq hc₁) fun _ _ => rfl
  simp only [if_neg htwo]
  by_cases hfour : first = 0xfe
  · simp only [if_pos hfour]
    exact checked_bind (readU32Checked_eq hc₁) fun _ _ => rfl
  simp only [if_neg hfour]
  rw [readU64Checked_eq hc₁]
  cases c₁.readU64 <;> rfl

theorem readCountChecked_eq (hc : c.InBounds) : c.readCountChecked = unchecked c.readCount := by
  refine checked_bind (readVarintChecked_eq hc) fun r _ => ?_
  obtain ⟨n, c₁⟩ := r
  dsimp only
  split <;> rfl

end Cursor

/-! ## The parser with every access checked -/

/-- The `#[from] ParseError` conversion; a panic stays one. -/
def liftChecked {α : Type} : Except (Stop ParseError) α → Except (Stop TxParseError) α
  | .ok a => .ok a
  | .error (.error e) => .error (.error (.cursor e))
  | .error .panic => .error .panic

def readInputCountChecked (marker : UInt8) (txIndex : UInt32) (c : Cursor) :
    Except (Stop TxParseError) (UInt64 × Cursor) := do
  if marker = 0x00 then
    let (flag, c) ← liftChecked c.readU8Checked
    if flag = 0 then
      throw (.error (.badSegwitFlag txIndex))
    else
      liftChecked c.readCountChecked
  else if marker ≤ 0xfc then
    pure (marker.toUInt64, c)
  else if marker = 0xfd then
    let (n, c) ← liftChecked c.readU16Checked
    pure (n.toUInt64, c)
  else if marker = 0xfe then
    let (n, c) ← liftChecked c.readU32Checked
    pure (n.toUInt64, c)
  else
    let (n, c) ← liftChecked c.readU64Checked
    if 4000000 < n.toNat then
      throw (.error (.cursor (.countOverflow n c.pos)))
    else
      pure (n, c)

def parseInputsChecked (height txIndex : UInt32) (isSingleInput : Bool) :
    Nat → UInt32 → Cursor → Except (Stop TxParseError) (List InputRow × Cursor)
  | 0, _, c => pure ([], c)
  | rounds + 1, inputIndex, c => do
      let (prevTxid, c) ← liftChecked (c.readArrayChecked 32)
      let (prevVout, c) ← liftChecked c.readU32Checked
      let (scriptLen, c) ← liftChecked c.readCountChecked
      let c ← liftChecked (c.skipChecked scriptLen.toNat)
      let (sequence, c) ← liftChecked c.readU32Checked
      let row : InputRow := {
        height
        txIndex
        inputIndex
        txid := zeroBytes 32
        prevTxid
        prevVout
        scriptSigLen := scriptLen.toUInt32
        sequence
        witnessItems := 0
        witnessBytes := 0
        isCoinbase := isSingleInput && inputIndex == 0 && decide (prevTxid = zeroBytes 32) &&
          prevVout == 0xFFFFFFFF }
      let (rows, c) ← parseInputsChecked height txIndex isSingleInput rounds (inputIndex + 1) c
      pure (row :: rows, c)

def parseOutputsChecked (D : Digests) (height txIndex : UInt32) :
    Nat → UInt32 → Cursor → Except (Stop TxParseError) (List OutputRow × Cursor)
  | 0, _, c => pure ([], c)
  | rounds + 1, outputIndex, c => do
      let (valueSat, c) ← liftChecked c.readU64Checked
      if maxMoney < valueSat.toNat then
        throw (.error (.badValue valueSat))
      else
        let (spkLen, c) ← liftChecked c.readCountChecked
        let (spk, c) ← liftChecked (c.readBytesChecked spkLen.toNat)
        let (scriptType, addressHash) ← orPanic (classifyScriptChecked D spk)
        let row : OutputRow := {
          height
          txIndex
          outputIndex
          txid := zeroBytes 32
          valueSat
          scriptPubkeyLen := spkLen.toUInt32
          scriptType := scriptType.code
          addressHash }
        let (rows, c) ← parseOutputsChecked D height txIndex rounds (outputIndex + 1) c
        pure (row :: rows, c)

def readWitnessItemsChecked :
    Nat → UInt32 → Cursor → Except (Stop TxParseError) (UInt32 × Cursor)
  | 0, witnessBytes, c => pure (witnessBytes, c)
  | rounds + 1, witnessBytes, c => do
      let (itemLen, c) ← liftChecked c.readCountChecked
      let c ← liftChecked (c.skipChecked itemLen.toNat)
      readWitnessItemsChecked rounds (witnessBytes + itemLen.toUInt32) c

def readWitnessesChecked :
    List InputRow → Cursor → Except (Stop TxParseError) (List InputRow × Cursor)
  | [], c => pure ([], c)
  | inp :: inputs, c => do
      let (itemCount, c) ← liftChecked c.readCountChecked
      let (witnessBytes, c) ← readWitnessItemsChecked itemCount.toNat inp.witnessBytes c
      let (rows, c) ← readWitnessesChecked inputs c
      pure ({ inp with witnessItems := itemCount.toUInt32, witnessBytes } :: rows, c)

/-- The bytes a txid is taken of: the prefix without marker and flag and the locktime, or the
whole transaction. -/
def strippedChecked (block : List UInt8) (hasWitness : Bool)
    (absStart strippedPrefixEnd absEnd : Nat) : Except (Stop TxParseError) (List UInt8) :=
  if hasWitness then do
    let stripped ← orPanic (sliceChecked block absStart strippedPrefixEnd)
    let lockStart ← orPanic (subChecked absEnd 4)
    let lock ← orPanic (sliceChecked block lockStart absEnd)
    let version ← orPanic (sliceChecked stripped 0 4)
    let body ← orPanic (sliceChecked stripped 6 stripped.length)
    pure (version ++ body ++ lock)
  else
    orPanic (sliceChecked block absStart absEnd)

/-- The stripped length, from the positions. -/
def strippedLenChecked (hasWitness : Bool) (absStart strippedPrefixEnd totalLen : Nat) :
    Except (Stop TxParseError) Nat :=
  if hasWitness then do
    let prefixLen ← orPanic (subChecked strippedPrefixEnd absStart)
    let bare ← orPanic (subChecked prefixLen 2)
    pure (bare + 4)
  else
    pure totalLen

def parseTxChecked (D : Digests) (c : Cursor) (block : List UInt8) (height txIndex : UInt32) :
    Except (Stop TxParseError) (ParsedTx × Cursor) := do
  let absStart := c.pos
  let (version, c) ← liftChecked c.readI32Checked
  let (marker, c) ← liftChecked c.readU8Checked
  let hasWitness := decide (marker = 0x00)
  let (inputCount, c) ← readInputCountChecked marker txIndex c
  let isSingleInput := decide (inputCount = 1)
  let (inputs, c) ← parseInputsChecked height txIndex isSingleInput inputCount.toUInt32.toNat 0 c
  let (outputCount, c) ← liftChecked c.readCountChecked
  let (outputs, c) ← parseOutputsChecked D height txIndex outputCount.toUInt32.toNat 0 c
  let strippedPrefixEnd := c.pos
  let (inputs, c) ← if hasWitness then readWitnessesChecked inputs c else pure (inputs, c)
  let (locktime, c) ← liftChecked c.readU32Checked
  let absEnd := c.pos
  let stripped ← strippedChecked block hasWitness absStart strippedPrefixEnd absEnd
  let txid : Bytes 32 := dsha256 D stripped
  let totalLen ← orPanic (subChecked absEnd absStart)
  let strippedLen ← strippedLenChecked hasWitness absStart strippedPrefixEnd totalLen
  let weight := strippedLen * 3 + totalLen
  let tx : TxRow := {
    height
    txIndex
    txid
    version
    locktime
    size := UInt32.ofNat totalLen
    weight := UInt32.ofNat weight
    fee := 0
    inputCount := inputCount.toUInt32
    outputCount := outputCount.toUInt32
    hasWitness }
  pure (⟨tx, inputs.map fun inp => { inp with txid }, outputs.map fun out => { out with txid }⟩, c)

def parseTxsChecked (D : Digests) (payload : List UInt8) (height : UInt32) :
    Nat → UInt32 → Cursor → Except (Stop TxParseError) (List ParsedTx × Cursor)
  | 0, _, c => pure ([], c)
  | rounds + 1, txIndex, c => do
      let (tx, c) ← parseTxChecked D c payload height txIndex
      let (txs, c) ← parseTxsChecked D payload height rounds (txIndex + 1) c
      pure (tx :: txs, c)

def parseBlockFullChecked (D : Digests) (payload : List UInt8) (height : UInt32)
    (blockHash : Hash32) (header : BlockHeader) : Except (Stop TxParseError) FullBlock := do
  let c ← liftChecked ((Cursor.new payload).skipChecked 80)
  let (txCount, c) ← liftChecked c.readCountChecked
  let (parsed, _) ← parseTxsChecked D payload height txCount.toUInt32.toNat 0 c
  if UInt64.ofNat parsed.length ≠ txCount then
    throw (.error (.txCountMismatch txCount (UInt64.ofNat parsed.length)))
  else
    let coinbaseValue := match parsed with
      | [] => 0
      | first :: _ => (first.outputs.map OutputRow.valueSat).sum
    let txWeightSum := (parsed.map fun p => p.tx.weight.toUInt64).sum
    let blockWeight := UInt32.ofNat (min (txWeightSum + 80 * 4).toNat 0xFFFFFFFF)
    pure {
      blockRow := {
        height
        hash := blockHash
        prevHash := header.prevHash
        merkleRoot := header.merkleRoot
        time := header.time
        bits := header.bits
        nonce := header.nonce
        version := header.version
        txCount := txCount.toUInt32
        size := UInt32.ofNat payload.length
        weight := blockWeight
        totalFee := 0
        coinbaseValue }
      txs := parsed.map ParsedTx.tx
      inputs := (parsed.map ParsedTx.inputs).flatten
      outputs := (parsed.map ParsedTx.outputs).flatten }

/-! ## The runs agree -/

theorem liftChecked_unchecked {α : Type} (x : Except ParseError α) :
    liftChecked (unchecked x) = unchecked (liftCursor x) := by
  cases x <;> rfl

/-- A read of the cursor as a step of the parser. -/
theorem checked_read {α β : Type} {x' : Except (Stop ParseError) α} {x : Except ParseError α}
    {f' : α → Except (Stop TxParseError) β} {f : α → Except TxParseError β} (hx : x' = unchecked x)
    (hf : ∀ a, x = .ok a → f' a = unchecked (f a)) :
    (liftChecked x' >>= f') = unchecked (liftCursor x >>= f) := by
  refine checked_bind (by rw [hx, liftChecked_unchecked]) fun a ha => hf a (liftCursor_eq_ok ha)

section Loops

open Cursor

variable {D : Digests} {height txIndex : UInt32} {c : Cursor}

theorem readInputCountChecked_eq (hc : c.InBounds) (marker : UInt8) :
    readInputCountChecked marker txIndex c = unchecked (readInputCount marker txIndex c) := by
  unfold readInputCountChecked readInputCount
  by_cases hzero : marker = 0x00
  · simp only [if_pos hzero]
    refine checked_read (readU8Checked_eq hc) fun r hr => ?_
    obtain ⟨flag, c₁⟩ := r
    have hc₁ := (readU8_eq_ok hr).inBounds hc
    dsimp only
    split
    · rfl
    · rw [readCountChecked_eq hc₁, liftChecked_unchecked]
  simp only [if_neg hzero]
  by_cases hone : marker ≤ 0xfc
  · simp only [if_pos hone]
    rfl
  simp only [if_neg hone]
  by_cases htwo : marker = 0xfd
  · simp only [if_pos htwo]
    exact checked_read (readU16Checked_eq hc) fun _ _ => rfl
  simp only [if_neg htwo]
  by_cases hfour : marker = 0xfe
  · simp only [if_pos hfour]
    exact checked_read (readU32Checked_eq hc) fun _ _ => rfl
  simp only [if_neg hfour]
  refine checked_read (readU64Checked_eq hc) fun r _ => ?_
  obtain ⟨n, c₁⟩ := r
  dsimp only
  split <;> rfl

theorem parseInputsChecked_eq (hc : c.InBounds) (single : Bool) (rounds : Nat)
    (inputIndex : UInt32) :
    parseInputsChecked height txIndex single rounds inputIndex c =
      unchecked (parseInputs height txIndex single rounds inputIndex c) := by
  induction rounds generalizing inputIndex c with
  | zero => rfl
  | succ rounds ih =>
      rw [parseInputsChecked, parseInputs]
      refine checked_read (readArrayChecked_eq hc 32) fun r hr => ?_
      obtain ⟨prevTxid, c₁⟩ := r
      have hc₁ := (readArray_eq_ok hr).inBounds hc
      refine checked_read (readU32Checked_eq hc₁) fun r hr => ?_
      obtain ⟨prevVout, c₂⟩ := r
      have hc₂ := (readU32_eq_ok hr).inBounds hc₁
      refine checked_read (readCountChecked_eq hc₂) fun r hr => ?_
      obtain ⟨scriptLen, c₃⟩ := r
      obtain ⟨-, len, -, hreads⟩ := readCount_eq_ok hr
      have hc₃ := hreads.inBounds hc₂
      refine checked_read (skipChecked_eq hc₃ _) fun c₄ hr => ?_
      obtain ⟨script, -, hreads⟩ := skip_eq_ok hr
      have hc₄ := hreads.inBounds hc₃
      refine checked_read (readU32Checked_eq hc₄) fun r hr => ?_
      obtain ⟨sequence, c₅⟩ := r
      have hc₅ := (readU32_eq_ok hr).inBounds hc₄
      exact checked_bind (ih hc₅ _) fun _ _ => rfl

theorem parseOutputsChecked_eq (hc : c.InBounds) (rounds : Nat) (outputIndex : UInt32) :
    parseOutputsChecked D height txIndex rounds outputIndex c =
      unchecked (parseOutputs D height txIndex rounds outputIndex c) := by
  induction rounds generalizing outputIndex c with
  | zero => rfl
  | succ rounds ih =>
      rw [parseOutputsChecked, parseOutputs]
      refine checked_read (readU64Checked_eq hc) fun r hr => ?_
      obtain ⟨valueSat, c₁⟩ := r
      have hc₁ := (readU64_eq_ok hr).inBounds hc
      dsimp only
      by_cases hmoney : maxMoney < valueSat.toNat
      · simp only [if_pos hmoney]
        rfl
      simp only [if_neg hmoney]
      refine checked_read (readCountChecked_eq hc₁) fun r hr => ?_
      obtain ⟨spkLen, c₂⟩ := r
      obtain ⟨-, len, -, hreads⟩ := readCount_eq_ok hr
      have hc₂ := hreads.inBounds hc₁
      refine checked_read (readBytesChecked_eq hc₂ _) fun r hr => ?_
      obtain ⟨spk, c₃⟩ := r
      have hc₃ := (readBytes_eq_ok hr).2.inBounds hc₂
      dsimp only
      rw [classifyScriptChecked_eq]
      exact checked_bind (ih hc₃ _) fun _ _ => rfl

theorem readWitnessItemsChecked_eq (hc : c.InBounds) (rounds : Nat) (acc : UInt32) :
    readWitnessItemsChecked rounds acc c = unchecked (readWitnessItems rounds acc c) := by
  induction rounds generalizing acc c with
  | zero => rfl
  | succ rounds ih =>
      rw [readWitnessItemsChecked, readWitnessItems]
      refine checked_read (readCountChecked_eq hc) fun r hr => ?_
      obtain ⟨itemLen, c₁⟩ := r
      obtain ⟨-, len, -, hreads⟩ := readCount_eq_ok hr
      have hc₁ := hreads.inBounds hc
      refine checked_read (skipChecked_eq hc₁ _) fun c₂ hr => ?_
      obtain ⟨item, -, hreads⟩ := skip_eq_ok hr
      exact ih (hreads.inBounds hc₁) _

theorem readWitnessesChecked_eq (hc : c.InBounds) (inputs : List InputRow) :
    readWitnessesChecked inputs c = unchecked (readWitnesses inputs c) := by
  induction inputs generalizing c with
  | nil => rfl
  | cons inp inputs ih =>
      rw [readWitnessesChecked, readWitnesses]
      refine checked_read (readCountChecked_eq hc) fun r hr => ?_
      obtain ⟨itemCount, c₁⟩ := r
      obtain ⟨-, count, -, hreads⟩ := readCount_eq_ok hr
      have hc₁ := hreads.inBounds hc
      refine checked_bind (readWitnessItemsChecked_eq hc₁ _ _) fun r hr => ?_
      obtain ⟨witnessBytes, c₂⟩ := r
      obtain ⟨stack, parts, -, -, hreads, -⟩ := readWitnessItems_eq_ok hr
      exact checked_bind (ih (hreads.inBounds hc₁)) fun _ _ => rfl

/-- The bytes of the hash are in range when marker and flag lie in the prefix and the locktime
behind it. -/
theorem strippedChecked_eq {block : List UInt8} {hasWitness : Bool} {start prefixEnd stop : Nat}
    (hmarker : hasWitness = true → start + 6 ≤ prefixEnd) (hstart : start ≤ prefixEnd)
    (hlock : prefixEnd + 4 ≤ stop) (hstop : stop ≤ block.length) :
    strippedChecked block hasWitness start prefixEnd stop =
      .ok (if hasWitness then
        (slice block start prefixEnd).take 4 ++ (slice block start prefixEnd).drop 6 ++
          slice block (stop - 4) stop
      else slice block start stop) := by
  cases hasWitness with
  | false =>
      rw [strippedChecked, if_neg Bool.false_ne_true,
        sliceChecked_of_le (by omega) hstop]
      rfl
  | true =>
      have hsix := hmarker rfl
      have hlen : (slice block start prefixEnd).length = prefixEnd - start := by
        rw [slice, List.length_take, List.length_drop]
        omega
      have hversion : sliceChecked (slice block start prefixEnd) 0 4 =
          some ((slice block start prefixEnd).take 4) :=
        sliceChecked_of_le (Nat.zero_le 4) (by omega)
      have hbody : sliceChecked (slice block start prefixEnd) 6
          (slice block start prefixEnd).length = some ((slice block start prefixEnd).drop 6) := by
        rw [sliceChecked_of_le (by omega) (Nat.le_refl _), List.take_of_length_le (by simp)]
      have hfront : sliceChecked block start prefixEnd = some (slice block start prefixEnd) :=
        sliceChecked_of_le hstart (by omega)
      have htail : sliceChecked block (stop - 4) stop = some (slice block (stop - 4) stop) :=
        sliceChecked_of_le (Nat.sub_le _ _) hstop
      rw [strippedChecked, if_pos rfl, hfront]
      change (orPanic (subChecked stop 4) >>= _) = _
      rw [subChecked_of_le (by omega)]
      change (orPanic (sliceChecked block (stop - 4) stop) >>= _) = _
      rw [htail]
      change (orPanic (sliceChecked (slice block start prefixEnd) 0 4) >>= _) = _
      rw [hversion]
      change (orPanic (sliceChecked (slice block start prefixEnd) 6
        (slice block start prefixEnd).length) >>= _) = _
      rw [hbody]
      rfl

theorem strippedLenChecked_eq {hasWitness : Bool} {start prefixEnd total : Nat}
    (hmarker : hasWitness = true → start + 6 ≤ prefixEnd) :
    strippedLenChecked hasWitness start prefixEnd total =
      .ok (if hasWitness then prefixEnd - start - 2 + 4 else total) := by
  cases hasWitness with
  | false => rfl
  | true =>
      have hsix := hmarker rfl
      rw [strippedLenChecked, if_pos rfl, subChecked_of_le (by omega)]
      change (orPanic (subChecked (prefixEnd - start) 2) >>= _) = _
      rw [subChecked_of_le (by omega)]
      rfl

/-- Behind a marker there is a flag. -/
theorem readInputCount_reads {marker : UInt8} {c c' : Cursor} {n : UInt64}
    (h : readInputCount marker txIndex c = .ok (n, c')) :
    ∃ bs, c.Reads bs c' ∧ (marker = 0x00 → 1 ≤ bs.length) := by
  by_cases hzero : marker = 0x00
  · subst hzero
    obtain ⟨flag, bs, -, -, -, hreads⟩ := readInputCount_segwit_eq_ok h
    exact ⟨_, hreads, fun _ => by simp⟩
  unfold readInputCount at h
  simp only [if_neg hzero] at h
  by_cases hone : marker ≤ 0xfc
  · rw [if_pos hone] at h
    obtain ⟨-, rfl⟩ := Prod.mk.inj (Except.ok.inj h)
    exact ⟨[], .nil c, fun hmarker => absurd hmarker hzero⟩
  rw [if_neg hone] at h
  by_cases htwo : marker = 0xfd
  · rw [if_pos htwo] at h
    obtain ⟨⟨v, c₁⟩, hword, h⟩ := except_bind_eq_ok h
    obtain ⟨-, rfl⟩ := Prod.mk.inj (Except.ok.inj h)
    exact ⟨_, readU16_eq_ok (liftCursor_eq_ok hword), fun hmarker => absurd hmarker hzero⟩
  rw [if_neg htwo] at h
  by_cases hfour : marker = 0xfe
  · rw [if_pos hfour] at h
    obtain ⟨⟨v, c₁⟩, hword, h⟩ := except_bind_eq_ok h
    obtain ⟨-, rfl⟩ := Prod.mk.inj (Except.ok.inj h)
    exact ⟨_, readU32_eq_ok (liftCursor_eq_ok hword), fun hmarker => absurd hmarker hzero⟩
  rw [if_neg hfour] at h
  obtain ⟨⟨v, c₁⟩, hword, h⟩ := except_bind_eq_ok h
  dsimp only at h
  split at h
  · contradiction
  · obtain ⟨-, rfl⟩ := Prod.mk.inj (Except.ok.inj h)
    exact ⟨_, readU64_eq_ok (liftCursor_eq_ok hword), fun hmarker => absurd hmarker hzero⟩

theorem witnessesChecked_eq (hc : c.InBounds) (hasWitness : Bool) (inputs : List InputRow) :
    (if hasWitness then readWitnessesChecked inputs c else pure (inputs, c)) =
      unchecked (if hasWitness then readWitnesses inputs c else pure (inputs, c)) := by
  cases hasWitness with
  | false => rfl
  | true => exact readWitnessesChecked_eq hc inputs

theorem witnesses_reads {hasWitness : Bool} {inputs rows : List InputRow} {c' : Cursor}
    (h : (if hasWitness then readWitnesses inputs c else pure (inputs, c)) = .ok (rows, c')) :
    ∃ bs, c.Reads bs c' := by
  cases hasWitness with
  | false =>
      obtain ⟨-, rfl⟩ := Prod.mk.inj (Except.ok.inj h)
      exact ⟨[], .nil c⟩
  | true =>
      obtain ⟨witnesses, parts, -, -, hreads, -⟩ := readWitnesses_eq_ok h
      exact ⟨_, hreads⟩

/-- `parse_tx` is called on the block its cursor reads. -/
theorem parseTxChecked_eq (hc : c.InBounds) :
    parseTxChecked D c c.data height txIndex = unchecked (parseTx D c c.data height txIndex) := by
  rw [parseTxChecked, parseTx]
  refine checked_read (readI32Checked_eq hc) fun r hr => ?_
  obtain ⟨version, c₁⟩ := r
  have hversion := readI32_eq_ok hr
  have hc₁ := hversion.inBounds hc
  refine checked_read (readU8Checked_eq hc₁) fun r hr => ?_
  obtain ⟨marker, c₂⟩ := r
  have hmarker := readU8_eq_ok hr
  have hc₂ := hmarker.inBounds hc₁
  refine checked_bind (readInputCountChecked_eq hc₂ marker) fun r hr => ?_
  obtain ⟨inputCount, c₃⟩ := r
  obtain ⟨count, hcount, hflag⟩ := readInputCount_reads hr
  have hc₃ := hcount.inBounds hc₂
  refine checked_bind (parseInputsChecked_eq hc₃ _ _ _) fun r hr => ?_
  obtain ⟨inputs, c₄⟩ := r
  obtain ⟨ins, inParts, -, -, hins, -⟩ := @parseInputs_eq_ok _ _ _ _ _ _ 0 _ hr
  have hc₄ := hins.inBounds hc₃
  refine checked_read (readCountChecked_eq hc₄) fun r hr => ?_
  obtain ⟨outputCount, c₅⟩ := r
  obtain ⟨-, outCount, -, houtCount⟩ := readCount_eq_ok hr
  have hc₅ := houtCount.inBounds hc₄
  refine checked_bind (parseOutputsChecked_eq hc₅ _ _) fun r hr => ?_
  obtain ⟨outputs, c₆⟩ := r
  obtain ⟨outs, outParts, -, -, houts, -⟩ := @parseOutputs_eq_ok _ _ _ _ _ _ 0 _ hr
  have hc₆ := houts.inBounds hc₅
  -- Version, marker and flag precede the end of the outputs.
  have hfront := hversion.trans (hmarker.trans (hcount.trans (hins.trans
    (houtCount.trans houts))))
  have hsix : decide (marker = 0x00) = true → c.pos + 6 ≤ c₆.pos := by
    intro hzero
    have hlen := hflag (of_decide_eq_true hzero)
    rw [hfront.pos]
    simp only [List.length_append, length_toBytes, List.length_cons, List.length_nil]
    omega
  refine checked_branch (witnessesChecked_eq hc₆ _ inputs) fun r hr => ?_
  obtain ⟨witnessed, c₇⟩ := r
  obtain ⟨witness, hwitness⟩ := witnesses_reads hr
  have hc₇ := hwitness.inBounds hc₆
  refine checked_read (readU32Checked_eq hc₇) fun r hr => ?_
  obtain ⟨locktime, c₈⟩ := r
  have hlocktime := readU32_eq_ok hr
  have hc₈ : c₈.pos ≤ c₈.data.length := hlocktime.inBounds hc₇
  rw [(hfront.trans (hwitness.trans hlocktime)).data] at hc₈
  have hlock : c₆.pos + 4 ≤ c₈.pos := by
    rw [hlocktime.pos, hwitness.pos, length_toBytes]
    omega
  have hstart : c.pos ≤ c₆.pos := by
    rw [hfront.pos]
    exact Nat.le_add_right _ _
  dsimp only
  rw [strippedChecked_eq hsix hstart hlock hc₈, ok_bind, subChecked_of_le (by omega)]
  change (strippedLenChecked _ _ _ _ >>= _) = _
  rw [strippedLenChecked_eq hsix, ok_bind]
  cases decide (marker = 0x00) <;> rfl

theorem parseTxsChecked_eq (hc : c.InBounds) (rounds : Nat) (index : Nat) :
    parseTxsChecked D c.data height rounds (UInt32.ofNat index) c =
      unchecked (parseTxs D c.data height rounds (UInt32.ofNat index) c) := by
  induction rounds generalizing index c with
  | zero => rfl
  | succ rounds ih =>
      rw [parseTxsChecked, parseTxs]
      refine checked_bind (parseTxChecked_eq hc) fun r hr => ?_
      obtain ⟨tx, c₁⟩ := r
      obtain ⟨s, hreads, -⟩ := parseTx_eq_ok hr
      have hrest := ih (hreads.inBounds hc) (index + 1)
      rw [hreads.data, ← ofNat_succ_u32] at hrest
      exact checked_bind hrest fun _ _ => rfl

end Loops

/-- **No access of the parser is out of range**: with every access checked it returns what it
returns without. -/
theorem parseBlockFullChecked_eq (D : Digests) (payload : List UInt8) (height : UInt32)
    (hash : Hash32) (header : BlockHeader) :
    parseBlockFullChecked D payload height hash header =
      unchecked (parseBlockFull D payload height hash header) := by
  have hc₀ : (Cursor.new payload).InBounds := Nat.zero_le _
  rw [parseBlockFullChecked, parseBlockFull]
  refine checked_read (Cursor.skipChecked_eq hc₀ 80) fun c₁ hr => ?_
  obtain ⟨head, -, hskip⟩ := Cursor.skip_eq_ok hr
  have hc₁ := hskip.inBounds hc₀
  refine checked_read (Cursor.readCountChecked_eq hc₁) fun r hr => ?_
  obtain ⟨txCount, c₂⟩ := r
  obtain ⟨-, count, -, hcount⟩ := Cursor.readCount_eq_ok hr
  have hc₂ := hcount.inBounds hc₁
  have htxs := @parseTxsChecked_eq D height _ hc₂ txCount.toUInt32.toNat 0
  rw [(hskip.trans hcount).data] at htxs
  refine checked_bind htxs fun r _ => ?_
  obtain ⟨parsed, c₃⟩ := r
  dsimp only
  split <;> rfl

end Bidx
