import Bidx.Core.Types

/-!
# The wire-format cursor

`Cursor` reads Bitcoin wire data left to right: every read first checks that
enough bytes remain, then moves the position past them.  The model keeps the
whole buffer and the position, as the source does, because the parser later
cuts slices by absolute position.

Each read gets one specification lemma of the same shape: where the unread
bytes `c.rest` start with the encoding of a value, the read returns the value
and advances past exactly that encoding.
-/

namespace Bidx

open LittleEndian

inductive ParseError where
  | eof (offset needed remaining : Nat)
  | badVarInt (offset : Nat)
  | countOverflow (count : UInt64) (offset : Nat)
deriving DecidableEq

structure Cursor where
  data : List UInt8
  pos : Nat

namespace Cursor

/-- `MAX_ITEMS`, the sanity limit on counts and lengths. -/
def maxItems : Nat := 4000000

def new (data : List UInt8) : Cursor := ⟨data, 0⟩

def remaining (c : Cursor) : Nat := c.data.length - c.pos

/-- The unread bytes. -/
def rest (c : Cursor) : List UInt8 := c.data.drop c.pos

/-- Move the position. -/
def advance (c : Cursor) (n : Nat) : Cursor := { c with pos := c.pos + n }

def need (c : Cursor) (n : Nat) : Except ParseError Unit :=
  if c.remaining < n then .error (.eof c.pos n c.remaining) else .ok ()

/-- `read_bytes`: the next `n` bytes. -/
def readBytes (c : Cursor) (n : Nat) : Except ParseError (List UInt8 × Cursor) := do
  c.need n
  pure (c.rest.take n, c.advance n)

/-- `skip`. -/
def skip (c : Cursor) (n : Nat) : Except ParseError Cursor := do
  c.need n
  pure (c.advance n)

/-- `read_array`: a fixed-length array. -/
def readArray (c : Cursor) (n : Nat) : Except ParseError (Bytes n × Cursor) := do
  c.need n
  pure (arrayAt n c.data c.pos, c.advance n)

def readU8 (c : Cursor) : Except ParseError (UInt8 × Cursor) := do
  let (bs, c) ← c.readBytes 1
  pure (bs.headD 0, c)

def readU16 (c : Cursor) : Except ParseError (UInt16 × Cursor) := do
  let (bs, c) ← c.readBytes 2
  pure (UInt16.ofNat (ofBytes bs), c)

def readU32 (c : Cursor) : Except ParseError (UInt32 × Cursor) := do
  let (bs, c) ← c.readBytes 4
  pure (UInt32.ofNat (ofBytes bs), c)

def readI32 (c : Cursor) : Except ParseError (Int32 × Cursor) := do
  let (v, c) ← c.readU32
  pure (v.toInt32, c)

def readU64 (c : Cursor) : Except ParseError (UInt64 × Cursor) := do
  let (bs, c) ← c.readBytes 8
  pure (UInt64.ofNat (ofBytes bs), c)

/-- `read_varint`: Bitcoin compact size.  A truncated eight-byte form is
reported as a bad varint at its first byte, the shorter forms as end of data. -/
def readVarint (c : Cursor) : Except ParseError (UInt64 × Cursor) := do
  let start := c.pos
  let (first, c) ← c.readU8
  if first ≤ 0xfc then
    pure (first.toUInt64, c)
  else if first = 0xfd then
    let (v, c) ← c.readU16
    pure (v.toUInt64, c)
  else if first = 0xfe then
    let (v, c) ← c.readU32
    pure (v.toUInt64, c)
  else
    match c.readU64 with
    | .ok r => pure r
    | .error _ => throw (.badVarInt start)

/-- `read_count`: a varint bounded by the sanity limit. -/
def readCount (c : Cursor) : Except ParseError (UInt64 × Cursor) := do
  let (n, c) ← c.readVarint
  if maxItems < n.toNat then
    throw (.countOverflow n c.pos)
  else
    pure (n, c)

/-! ## Specification of the reads -/

/-- The cursor after the bytes `bs` have been read. -/
def after (c : Cursor) (bs : List UInt8) : Cursor := c.advance bs.length

@[simp] theorem after_data (c : Cursor) (bs : List UInt8) : (c.after bs).data = c.data := rfl

@[simp] theorem after_pos (c : Cursor) (bs : List UInt8) :
    (c.after bs).pos = c.pos + bs.length := rfl

theorem after_nil (c : Cursor) : c.after [] = c := rfl

theorem after_after (c : Cursor) (bs bs' : List UInt8) :
    (c.after bs).after bs' = c.after (bs ++ bs') := by
  simp [after, advance, Nat.add_assoc]

/-- Reading a prefix of the unread bytes leaves the remainder unread. -/
theorem rest_after {c : Cursor} {bs tail : List UInt8} (h : c.rest = bs ++ tail) :
    (c.after bs).rest = tail := by
  change c.data.drop (c.pos + bs.length) = tail
  rw [← List.drop_drop, show c.data.drop c.pos = bs ++ tail from h, List.drop_left]

theorem remaining_eq (c : Cursor) : c.remaining = c.rest.length := by
  simp [remaining, rest]

theorem need_ok {c : Cursor} {bs tail : List UInt8} (h : c.rest = bs ++ tail) :
    c.need bs.length = .ok () := by
  have hle : ¬c.remaining < bs.length := by
    rw [remaining_eq, h, List.length_append]
    omega
  rw [need, if_neg hle]

theorem readBytes_ok {c : Cursor} {bs tail : List UInt8} (h : c.rest = bs ++ tail) :
    c.readBytes bs.length = .ok (bs, c.after bs) := by
  simp only [readBytes, need_ok h, h, List.take_left]
  rfl

theorem skip_ok {c : Cursor} {bs tail : List UInt8} (h : c.rest = bs ++ tail) :
    c.skip bs.length = .ok (c.after bs) := by
  simp only [skip, need_ok h]
  rfl

theorem readArray_ok {c : Cursor} {n : Nat} {a : Bytes n} {tail : List UInt8}
    (h : c.rest = a.toList ++ tail) :
    c.readArray n = .ok (a, c.after a.toList) := by
  have hlen : a.toList.length = n := a.toList_length
  have hneed : c.need n = .ok () := by
    have := need_ok h
    rwa [hlen] at this
  have harray : arrayAt n c.data c.pos = a := arrayAt_of_drop a h
  simp only [readArray, hneed, harray, after, hlen]
  rfl

/-- Reading a little-endian word of `w` bytes. -/
theorem readBytes_toBytes {c : Cursor} {tail : List UInt8} {w n : Nat}
    (h : c.rest = toBytes w n ++ tail) :
    c.readBytes w = .ok (toBytes w n, c.after (toBytes w n)) := by
  have := readBytes_ok h
  rwa [length_toBytes] at this

theorem readU8_ok {c : Cursor} {b : UInt8} {tail : List UInt8} (h : c.rest = b :: tail) :
    c.readU8 = .ok (b, c.after [b]) := by
  have hrest : c.rest = [b] ++ tail := h
  have hread : c.readBytes 1 = .ok ([b], c.after [b]) := readBytes_ok hrest
  simp only [readU8, hread]
  rfl

theorem readU16_ok {c : Cursor} {n : Nat} {tail : List UInt8}
    (h : c.rest = toBytes 2 n ++ tail) :
    c.readU16 = .ok (UInt16.ofNat n, c.after (toBytes 2 n)) := by
  have hword : UInt16.ofNat (ofBytes (toBytes 2 n)) = UInt16.ofNat n := by
    apply UInt16.toNat_inj.mp
    rw [ofBytes_toBytes, UInt16.toNat_ofNat', UInt16.toNat_ofNat']
    norm_num
  simp only [readU16, readBytes_toBytes h, ← hword]
  rfl

theorem readU32_ok {c : Cursor} {v : UInt32} {tail : List UInt8}
    (h : c.rest = toBytes 4 v.toNat ++ tail) :
    c.readU32 = .ok (v, c.after (toBytes 4 v.toNat)) := by
  simp only [readU32, readBytes_toBytes h]
  change Except.ok (UInt32.ofNat (ofBytes (toBytes 4 v.toNat)), _) = _
  rw [ofBytes_toBytes_u32]

theorem readI32_ok {c : Cursor} {v : Int32} {tail : List UInt8}
    (h : c.rest = toBytes 4 v.toUInt32.toNat ++ tail) :
    c.readI32 = .ok (v, c.after (toBytes 4 v.toUInt32.toNat)) := by
  simp only [readI32, readU32_ok h]
  change Except.ok (v.toUInt32.toInt32, _) = _
  rw [Int32.toInt32_toUInt32]

theorem readU64_ok {c : Cursor} {v : UInt64} {tail : List UInt8}
    (h : c.rest = toBytes 8 v.toNat ++ tail) :
    c.readU64 = .ok (v, c.after (toBytes 8 v.toNat)) := by
  simp only [readU64, readBytes_toBytes h]
  change Except.ok (UInt64.ofNat (ofBytes (toBytes 8 v.toNat)), _) = _
  rw [ofBytes_toBytes_u64]

end Cursor

end Bidx
