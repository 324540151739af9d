import Bidx.Parser.BlkFile

/-!
# What the blk reader finds

Both walkers of a blk file, the one that looks for the end of the records and the
record iterator, go by the same notion: a complete record at a position
(`FrameAt`).  The first reads through the key, which is the same as reading the
decoded bytes.  From this follow the round trip of a framed file and the
transparency of the obfuscation.
-/

namespace Bidx

open LittleEndian Keystream

/-! ## Decoding -/

section Decode

variable (key : Bytes 8)

theorem keyByte_mod (off : Nat) : keyByte key (off % 8) = keyByte key off := by
  simp only [keyByte, Nat.mod_mod]

theorem getElem?_key {i : Nat} (hi : i < 8) : key.toList[i]? = some (keyByte key i) := by
  have hget := List.Vector.get_eq_get_toList key ⟨i, hi⟩
  rw [List.getElem?_eq_getElem (by rw [key.toList_length]; exact hi)]
  simp only [keyByte, Nat.mod_eq_of_lt hi, hget]
  rfl

/-- A chunk that starts at a multiple of the key length. -/
theorem chunk_eq_mask {off : Nat} (hoff : off % 8 = 0) {chunk : List UInt8}
    (hlen : chunk.length = 8) :
    toBytes 8 (UInt64.ofNat (ofBytes chunk) ^^^ UInt64.ofNat (ofBytes key.toList)).toNat =
      mask (keyByte key) off chunk := by
  rw [UInt64.toNat_xor, toBytes_xor, toBytes_ofBytes_u64 hlen,
    toBytes_ofBytes_u64 key.toList_length]
  apply zipWith_eq_mask
  intro i hi
  rw [getElem?_key key (by omega), ← keyByte_mod key (off + i), Nat.add_mod, hoff, Nat.zero_add,
    Nat.mod_mod, keyByte_mod]

theorem xorChunks_eq_mask {chunks off : Nat} (hoff : off % 8 = 0) {buf : List UInt8}
    (hlen : chunks * 8 ≤ buf.length) :
    xorChunks (UInt64.ofNat (ofBytes key.toList)) chunks buf =
      mask (keyByte key) off (buf.take (chunks * 8)) := by
  induction chunks generalizing off buf with
  | zero => simp [xorChunks]
  | succ chunks ih =>
      have hchunk : (buf.take 8).length = 8 := by rw [List.length_take]; omega
      have hsplit : buf.take ((chunks + 1) * 8) = buf.take 8 ++ (buf.drop 8).take (chunks * 8) := by
        rw [show (chunks + 1) * 8 = 8 + chunks * 8 by omega, List.take_add]
      have hnext : (off + 8) % 8 = 0 := by omega
      rw [xorChunks, chunk_eq_mask key hoff hchunk, hsplit, mask_append, hchunk,
        ih hnext (by rw [List.length_drop]; omega)]

/-- The fast decoder masks byte by byte. -/
theorem xorDecode_eq_mask (buf : List UInt8) : xorDecode buf key = mask (keyByte key) 0 buf := by
  have hle : buf.length / 8 * 8 ≤ buf.length := Nat.div_mul_le_self _ _
  have hlen : (buf.take (buf.length / 8 * 8)).length = buf.length / 8 * 8 := by
    rw [List.length_take]
    omega
  conv_rhs => rw [← List.take_append_drop (buf.length / 8 * 8) buf, mask_append, hlen]
  simp only [xorDecode, xorChunks_eq_mask key (Nat.zero_mod 8) hle, mapIdx_eq_mask, Nat.zero_add]

/-- The bytes of a file as they are without obfuscation. -/
def decodedBytes (raw : List UInt8) : Option (Bytes 8) → List UInt8
  | none => raw
  | some key => xorDecode raw key

theorem length_decodedBytes (raw : List UInt8) (key : Option (Bytes 8)) :
    (decodedBytes raw key).length = raw.length := by
  cases key with
  | none => rfl
  | some key => rw [decodedBytes, xorDecode_eq_mask, length_mask]

/-- A word read through the key is a word of the decoded bytes. -/
theorem walkWord_key (raw : List UInt8) (off : Nat) :
    walkWord raw off (some key) = walkWord (mask (keyByte key) 0 raw) off none := by
  simp only [walkWord, mapIdx_eq_mask, drop_mask, take_mask, Nat.zero_add]

theorem walkLoop_key (raw : List UInt8) (fuel pos : Nat) :
    walkLoop raw (some key) fuel pos = walkLoop (mask (keyByte key) 0 raw) none fuel pos := by
  induction fuel generalizing pos with
  | zero => rfl
  | succ fuel ih => simp only [walkLoop, walkWord_key, length_mask, ih]

/-- The chunked decoder, its tail and the word reader are the same XOR with the
repeating key, byte by byte. -/
theorem xorDecode_bytewise (buf : List UInt8) :
    (xorDecode buf key).length = buf.length ∧
      (∀ i, (xorDecode buf key)[i]? =
        buf[i]?.map (· ^^^ key.get ⟨i % 8, Nat.mod_lt _ (by decide)⟩)) ∧
      xorDecode (xorDecode buf key) key = buf ∧
      (∀ count, xorDecode (buf.take count) key = (xorDecode buf key).take count) ∧
      ∀ off, walkWord buf off (some key) = u32At (xorDecode buf key) off := by
  simp only [xorDecode_eq_mask]
  refine ⟨length_mask 0 buf, fun i => ?_, mask_mask 0 buf, fun count => (take_mask count 0 buf).symm,
    fun off => walkWord_key key buf off⟩
  rw [getElem?_mask, Nat.zero_add]
  rfl

end Decode

/-! ## Complete records -/

/-- A complete record at `pos` with a payload of `len` bytes. -/
structure FrameAt (data : List UInt8) (pos len : Nat) : Prop where
  known : isKnownNetworkMagic (u32At data pos) = true
  len_eq : (u32At data (pos + 4)).toNat = len
  header_le : blockHeaderLen ≤ len
  fits : pos + 8 + len ≤ data.length

section Walkers

variable {data : List UInt8} {pos len : Nat}

theorem walkLoop_of_frame (h : FrameAt data pos len) (fuel : Nat) :
    walkLoop data none (fuel + 1) pos = walkLoop data none fuel (pos + 8 + len) := by
  have hheader := h.header_le
  have hfits := h.fits
  have hknown : isKnownNetworkMagic (walkWord data pos none) = true := h.known
  have hlen : (walkWord data (pos + 4) none).toNat = len := h.len_eq
  rw [walkLoop, if_pos (by omega), if_pos hknown]
  simp only [hlen]
  rw [if_neg (by omega)]

theorem walkLoop_of_stop (h : ∀ len, ¬FrameAt data pos len) (fuel : Nat) :
    walkLoop data none fuel pos = pos := by
  cases fuel with
  | zero => rfl
  | succ fuel =>
      have hword : (walkWord data (pos + 4) none).toNat = (u32At data (pos + 4)).toNat := rfl
      rw [walkLoop]
      by_cases hroom : pos + 8 + blockHeaderLen ≤ data.length
      · rw [if_pos hroom]
        by_cases hknown : isKnownNetworkMagic (walkWord data pos none) = true
        · rw [if_pos hknown]
          apply if_pos
          by_contra hlen
          exact h _ ⟨hknown, rfl, by omega, by omega⟩
        · rw [if_neg hknown]
      · rw [if_neg hroom]

theorem le_walkLoop (fuel : Nat) : pos ≤ walkLoop data none fuel pos := by
  induction fuel generalizing pos with
  | zero => exact le_rfl
  | succ fuel ih =>
      by_cases h : ∃ len, FrameAt data pos len
      · obtain ⟨len, hframe⟩ := h
        rw [walkLoop_of_frame hframe]
        exact le_trans (by omega) ih
      · rw [walkLoop_of_stop (not_exists.mp h)]

/-- The walk finds a record exactly when there is one at the start. -/
theorem walkLoop_eq_zero_iff :
    walkLoop data none data.length 0 = 0 ↔ ∀ len, ¬FrameAt data 0 len := by
  constructor
  · intro hzero len hframe
    have hfits := hframe.fits
    obtain ⟨fuel, hfuel⟩ : ∃ fuel, data.length = fuel + 1 := ⟨data.length - 1, by omega⟩
    rw [hfuel, walkLoop_of_frame hframe] at hzero
    have : 0 + 8 + len ≤ walkLoop data none fuel (0 + 8 + len) := le_walkLoop fuel
    omega
  · intro h
    exact walkLoop_of_stop h _

/-- The low byte of a word is the byte at its offset. -/
theorem u32At_toNat_mod (data : List UInt8) (pos : Nat) :
    (u32At data pos).toNat % 256 = ((data.drop pos).headD 0).toNat := by
  rw [u32At, UInt32.toNat_ofNat']
  cases hdrop : data.drop pos with
  | nil => rfl
  | cons b rest =>
      have hb : b.toNat < 256 := b.toNat_lt
      rw [List.take_succ_cons, ofBytes_cons, List.headD_cons]
      omega

/-- No known magic starts with a zero byte, so the iterator does not take a record
for padding. -/
theorem FrameAt.head_ne_zero (h : FrameAt data pos len) : (data.drop pos).headD 0 ≠ 0 := by
  have hmagic : (u32At data pos).toNat % 256 ≠ 0 :=
    known_magic_cases (P := fun magic => magic.toNat % 256 ≠ 0) (by decide) (by decide)
      (by decide) (by decide) (by decide) h.known
  intro hzero
  rw [u32At_toNat_mod, hzero] at hmagic
  exact hmagic rfl

theorem skipPadding_of_head (h : (data.drop pos).headD 0 ≠ 0) : skipPadding data pos = pos := by
  rw [skipPadding]
  cases hdrop : data.drop pos with
  | nil => rfl
  | cons b rest =>
      rw [hdrop, List.headD_cons] at h
      rw [List.takeWhile_cons_of_neg (by simpa using h)]
      rfl

/-- The iterator at a complete record. -/
theorem next_of_frame (h : FrameAt data pos len) (fileId : UInt32) :
    BlkRecordIter.next ⟨fileId, data, pos⟩ =
      (some (.ok ⟨⟨fileId, UInt64.ofNat pos, UInt32.ofNat (len + 8)⟩,
        arrayAt blockHeaderLen data (pos + 8)⟩), ⟨fileId, data, pos + 8 + len⟩) := by
  have hfits := h.fits
  have hheader := h.header_le
  have hrecord : readRecord fileId data pos (u32At data pos) len =
      .ok ⟨⟨fileId, UInt64.ofNat pos, UInt32.ofNat (len + 8)⟩,
        arrayAt blockHeaderLen data (pos + 8)⟩ := by
    rw [readRecord, if_neg (by simp [h.known]), if_neg (by omega)]
  simp only [BlkRecordIter.next, skipPadding_of_head h.head_ne_zero]
  rw [if_neg (by omega), h.len_eq, hrecord]

theorem next_at_end (fileId : UInt32) :
    BlkRecordIter.next ⟨fileId, data, data.length⟩ = (none, ⟨fileId, data, data.length⟩) := by
  simp [BlkRecordIter.next, skipPadding]

end Walkers

/-! ## Framed files -/

/-- A record to be written: a known magic and a payload that holds a header and
whose length fits its field. -/
structure BlkFrame where
  magic : UInt32
  payload : List UInt8
  known : isKnownNetworkMagic magic = true
  header_le : blockHeaderLen ≤ payload.length
  length_lt : payload.length < 2 ^ 32

namespace BlkFrame

/-- `magic || length || payload`. -/
def bytes (f : BlkFrame) : List UInt8 :=
  toBytes 4 f.magic.toNat ++ (toBytes 4 f.payload.length ++ f.payload)

/-- The record the reader should hand out for a frame at `pos`. -/
def recordAt (fileId : UInt32) (pos : Nat) (f : BlkFrame) : BlkRecord where
  location := ⟨fileId, UInt64.ofNat pos, UInt32.ofNat (f.payload.length + 8)⟩
  headerRaw := arrayAt blockHeaderLen f.payload 0

@[simp] theorem length_bytes (f : BlkFrame) : f.bytes.length = 8 + f.payload.length := by
  simp only [bytes, List.length_append, length_toBytes]
  omega

end BlkFrame

/-- The frames one after the other. -/
def framed (frames : List BlkFrame) : List UInt8 := frames.flatMap BlkFrame.bytes

/-- The records of the frames from `pos` on. -/
def recordsAt (fileId : UInt32) : Nat → List BlkFrame → List BlkRecord
  | _, [] => []
  | pos, f :: frames => f.recordAt fileId pos :: recordsAt fileId (pos + f.bytes.length) frames

section Framed

variable {pre post rest : List UInt8} {f : BlkFrame} {frames : List BlkFrame}

@[simp] theorem framed_nil : framed [] = [] := rfl

@[simp] theorem framed_cons (f : BlkFrame) (frames : List BlkFrame) :
    framed (f :: frames) = f.bytes ++ framed frames := rfl

theorem u32At_of_drop {data : List UInt8} {pos n : Nat} (hn : n < 2 ^ 32)
    (h : data.drop pos = toBytes 4 n ++ post) : u32At data pos = UInt32.ofNat n := by
  rw [u32At, h, List.take_left' (length_toBytes 4 n), ofBytes_toBytes_of_lt (by simpa using hn)]

theorem u32At_magic (pre post : List UInt8) (f : BlkFrame) :
    u32At (pre ++ (toBytes 4 f.magic.toNat ++ post)) pre.length = f.magic := by
  rw [u32At_of_drop f.magic.toNat_lt List.drop_left, UInt32.ofNat_toNat]

theorem u32At_length (pre post : List UInt8) (f : BlkFrame) :
    u32At (pre ++ (toBytes 4 f.magic.toNat ++ (toBytes 4 f.payload.length ++ post)))
      (pre.length + 4) = UInt32.ofNat f.payload.length := by
  apply u32At_of_drop f.length_lt
  rw [← List.drop_drop, List.drop_left, List.drop_left' (length_toBytes _ _)]

theorem toNat_length (f : BlkFrame) :
    (UInt32.ofNat f.payload.length).toNat = f.payload.length := by
  rw [UInt32.toNat_ofNat', Nat.mod_eq_of_lt f.length_lt]

theorem frameAt_bytes (pre post : List UInt8) (f : BlkFrame) :
    FrameAt (pre ++ (f.bytes ++ post)) pre.length f.payload.length where
  known := by
    rw [BlkFrame.bytes, List.append_assoc, u32At_magic]
    exact f.known
  len_eq := by
    rw [BlkFrame.bytes, List.append_assoc, List.append_assoc, u32At_length, toNat_length]
  header_le := f.header_le
  fits := by
    simp only [List.length_append, BlkFrame.length_bytes]
    omega

/-- The header is the first bytes of the payload, wherever the frame stands. -/
theorem header_bytes (pre post : List UInt8) (f : BlkFrame) :
    arrayAt blockHeaderLen (pre ++ (f.bytes ++ post)) (pre.length + 8) =
      arrayAt blockHeaderLen f.payload 0 := by
  have hdrop : (pre ++ (f.bytes ++ post)).drop (pre.length + 8) = f.payload ++ post := by
    rw [← List.drop_drop, List.drop_left, BlkFrame.bytes, List.append_assoc, List.append_assoc,
      show 8 = 4 + 4 by rfl, ← List.drop_drop, List.drop_left' (length_toBytes _ _),
      List.drop_left' (length_toBytes _ _)]
  have hheader := f.header_le
  apply List.Vector.toList_injective
  rw [arrayAt_toList (by rw [hdrop, List.length_append]; omega), hdrop,
    arrayAt_toList (by simpa using hheader), List.drop_zero,
    List.take_append_of_le_length hheader]

/-- The walk passes the frames and stops behind them when nothing there is a
record. -/
theorem walkLoop_framed {fuel : Nat} (hfuel : frames.length ≤ fuel)
    (hstop : ∀ len, ¬FrameAt (pre ++ (framed frames ++ rest)) (pre ++ framed frames).length len) :
    walkLoop (pre ++ (framed frames ++ rest)) none fuel pre.length =
      (pre ++ framed frames).length := by
  induction frames generalizing pre fuel with
  | nil =>
      rw [framed_nil, List.append_nil] at hstop ⊢
      exact walkLoop_of_stop hstop fuel
  | cons f frames ih =>
      obtain ⟨fuel, rfl⟩ : ∃ n, fuel = n + 1 := ⟨fuel - 1, by simp at hfuel; omega⟩
      have hframe := frameAt_bytes pre (framed frames ++ rest) f
      have hpos : pre.length + 8 + f.payload.length = (pre ++ f.bytes).length := by
        simp only [List.length_append, BlkFrame.length_bytes]
        omega
      simp only [framed_cons, List.append_assoc] at hstop ⊢
      rw [walkLoop_of_frame hframe, hpos]
      simp only [← List.append_assoc] at hstop ⊢
      simp only [List.append_assoc (pre ++ f.bytes)] at hstop ⊢
      exact ih (by simpa using hfuel) hstop

/-- The iterator over the frames and nothing else. -/
theorem items_framed (fileId : UInt32) {fuel : Nat} (hfuel : frames.length < fuel) :
    BlkRecordIter.items fuel ⟨fileId, pre ++ framed frames, pre.length⟩ =
      (recordsAt fileId pre.length frames).map .ok := by
  induction frames generalizing pre fuel with
  | nil =>
      obtain ⟨fuel, rfl⟩ : ∃ n, fuel = n + 1 := ⟨fuel - 1, by simp at hfuel; omega⟩
      rw [framed_nil, List.append_nil, BlkRecordIter.items, next_at_end]
      rfl
  | cons f frames ih =>
      obtain ⟨fuel, rfl⟩ : ∃ n, fuel = n + 1 := ⟨fuel - 1, by simp at hfuel; omega⟩
      have hpos : pre.length + 8 + f.payload.length = (pre ++ f.bytes).length := by
        simp only [List.length_append, BlkFrame.length_bytes]
        omega
      rw [framed_cons, BlkRecordIter.items, next_of_frame (frameAt_bytes pre (framed frames) f),
        header_bytes, hpos, recordsAt, List.map_cons]
      simp only
      rw [← List.append_assoc, ih (by simpa using hfuel), List.length_append]
      rfl

theorem length_le_framed (frames : List BlkFrame) : frames.length ≤ (framed frames).length := by
  induction frames with
  | nil => exact le_rfl
  | cons f frames ih =>
      simp only [List.length_cons, framed_cons, List.length_append, BlkFrame.length_bytes]
      omega

end Framed

/-! ## The round trip -/

/-- What may follow the last record: preallocated zero bytes, or the beginning of a
record that is still being written. -/
inductive FileTail : List UInt8 → Prop
  | padding (count : Nat) : FileTail (List.replicate count 0)
  | partialFrame (f : BlkFrame) (count : Nat) (h : count < f.bytes.length) :
      FileTail (f.bytes.take count)

/-- Four cyclically consecutive key bytes, as a word. -/
def keyWord (key : Bytes 8) (i : Nat) : UInt32 :=
  UInt32.ofNat (ofBytes [keyByte key i, keyByte key (i + 1), keyByte key (i + 2),
    keyByte key (i + 3)])

/-- An opened file hands out the records of the frames and their payloads. -/
def ReadsBack (fileId : UInt32) (frames : List BlkFrame)
    (file : Except BlkError MappedBlkFile) : Prop :=
  ∃ f, file = .ok f ∧ f.records = (recordsAt fileId 0 frames).map .ok ∧
    List.Forall₂ (fun rec frame => f.blockBytes rec.location = .ok frame.payload)
      (recordsAt fileId 0 frames) frames

section RoundTrip

variable {frames : List BlkFrame} {rest : List UInt8}

theorem not_frameAt_short {data : List UInt8} {pos : Nat} (h : data.length < pos + 8 + 80)
    (len : Nat) : ¬FrameAt data pos len := by
  intro hframe
  have hheader := hframe.header_le
  have hfits := hframe.fits
  rw [blockHeaderLen] at hheader
  omega

/-- No record starts at a word that is not a magic. -/
theorem not_frameAt_word {pre rest : List UInt8} {b₀ b₁ b₂ b₃ : UInt8}
    (hrest : rest.take 4 = [b₀, b₁, b₂, b₃])
    (hword : isKnownNetworkMagic (UInt32.ofNat (ofBytes [b₀, b₁, b₂, b₃])) = false) (len : Nat) :
    ¬FrameAt (pre ++ rest) pre.length len := by
  intro hframe
  have hknown := hframe.known
  rw [u32At, List.drop_left, hrest, hword] at hknown
  contradiction

/-- Neither padding nor half a record is a record. -/
theorem FileTail.not_frameAt (htail : FileTail rest) (pre : List UInt8) (len : Nat) :
    ¬FrameAt (pre ++ rest) pre.length len := by
  cases htail with
  | padding count =>
      by_cases hshort : count < 88
      · apply not_frameAt_short
        rw [List.length_append, List.length_replicate]
        omega
      · obtain ⟨more, rfl⟩ : ∃ more, count = 4 + more := ⟨count - 4, by omega⟩
        rw [List.replicate_add]
        exact not_frameAt_word rfl (by decide) len
  | partialFrame f count hcount =>
      rw [BlkFrame.length_bytes] at hcount
      by_cases hshort : count < 88
      · apply not_frameAt_short
        rw [List.length_append, List.length_take]
        omega
      · -- The length field is there and announces more than the file holds.
        intro hframe
        obtain ⟨more, rfl⟩ : ∃ more, count = 4 + (4 + more) := ⟨count - 8, by omega⟩
        have htake : f.bytes.take (4 + (4 + more)) =
            toBytes 4 f.magic.toNat ++ (toBytes 4 f.payload.length ++ f.payload.take more) := by
          rw [BlkFrame.bytes, List.take_append, length_toBytes, Nat.add_sub_cancel_left,
            List.take_append, length_toBytes, Nat.add_sub_cancel_left,
            List.take_of_length_le (by simp), List.take_of_length_le (by simp)]
        have hlen := hframe.len_eq
        have hfits := hframe.fits
        rw [htake, u32At_length, toNat_length] at hlen
        rw [List.length_append, List.length_take] at hfits
        omega

/-- Raw zero bytes decode to the key; no four bytes of it are a magic. -/
theorem not_frameAt_keyPadding {key : Bytes 8}
    (hkey : ∀ i < 8, isKnownNetworkMagic (keyWord key i) = false) (pre : List UInt8)
    (count len : Nat) :
    ¬FrameAt (pre ++ mask (keyByte key) pre.length (List.replicate count 0)) pre.length len := by
  by_cases hshort : count < 88
  · apply not_frameAt_short
    rw [List.length_append, length_mask, List.length_replicate]
    omega
  · obtain ⟨more, rfl⟩ : ∃ more, count = 4 + more := ⟨count - 4, by omega⟩
    have hword : isKnownNetworkMagic (keyWord key pre.length) = false := by
      have hcyclic : keyWord key (pre.length % 8) = keyWord key pre.length := by
        have hmod : ∀ i, keyByte key (pre.length % 8 + i) = keyByte key (pre.length + i) := by
          intro i
          rw [← keyByte_mod, Nat.mod_add_mod, keyByte_mod]
        simp only [keyWord, keyByte_mod, hmod]
      rw [← hcyclic]
      exact hkey _ (Nat.mod_lt _ (by decide))
    refine not_frameAt_word ?_ hword len
    rw [List.replicate_add, mask_append, List.take_left' (by simp)]
    simp [List.replicate]

/-- A walk that finds a record ends where the records do. -/
theorem recordWalkEnd_of_walk {raw : List UInt8} {key : Option (Bytes 8)} (hne : frames ≠ [])
    (hwalk : walkLoop raw key raw.length 0 = (framed frames).length) :
    recordWalkEnd raw key = (framed frames).length := by
  have hpos : 0 < (framed frames).length :=
    lt_of_lt_of_le (List.length_pos_of_ne_nil hne) (length_le_framed frames)
  simp only [recordWalkEnd, hwalk]
  rw [if_neg (by omega)]

theorem walkLoop_framed_end
    (hstop : ∀ len, ¬FrameAt (framed frames ++ rest) (framed frames).length len) :
    walkLoop (framed frames ++ rest) none (framed frames ++ rest).length 0 =
      (framed frames).length := by
  refine @walkLoop_framed [] rest frames _ ?_ hstop
  rw [List.length_append]
  exact (length_le_framed frames).trans (Nat.le_add_right _ _)

/-- The payload of every record is found again under its location. -/
theorem blockBytes_framed {f : MappedBlkFile} (fileId : UInt32) {pre : List UInt8}
    (hdata : f.data = pre ++ framed frames) (hlt : f.data.length < 2 ^ 32) :
    List.Forall₂ (fun rec frame => f.blockBytes rec.location = .ok frame.payload)
      (recordsAt fileId pre.length frames) frames := by
  induction frames generalizing pre with
  | nil => exact .nil
  | cons frame frames ih =>
      rw [recordsAt]
      rw [framed_cons] at hdata
      have hlength := congrArg List.length hdata
      simp only [List.length_append, BlkFrame.length_bytes] at hlength
      refine .cons ?_ ?_
      · have hoffset : (UInt64.ofNat pre.length).toNat = pre.length := by
          rw [UInt64.toNat_ofNat', Nat.mod_eq_of_lt (by omega)]
        have hrecord : (UInt32.ofNat (frame.payload.length + 8)).toNat =
            frame.payload.length + 8 := by
          rw [UInt32.toNat_ofNat', Nat.mod_eq_of_lt (by omega)]
        have hdrop : f.data.drop (pre.length + 8) = frame.payload ++ framed frames := by
          rw [hdata, ← List.drop_drop, List.drop_left, BlkFrame.bytes, List.append_assoc,
            List.append_assoc, show 8 = 4 + 4 by rfl, ← List.drop_drop,
            List.drop_left' (length_toBytes _ _), List.drop_left' (length_toBytes _ _)]
        simp only [MappedBlkFile.blockBytes, BlkFrame.recordAt, hoffset, hrecord, hdrop,
          Nat.add_sub_cancel, List.take_left]
        rw [if_neg (by omega), if_neg (by omega)]
      · have hnext := @ih (pre ++ frame.bytes) (by rw [hdata, List.append_assoc])
        rwa [List.length_append] at hnext

theorem readsBack_of_data {f : MappedBlkFile} (hdata : f.data = framed frames)
    (hlt : f.data.length < 2 ^ 32) : ReadsBack f.fileId frames (.ok f) := by
  refine ⟨f, rfl, ?_, @blockBytes_framed frames f f.fileId [] hdata hlt⟩
  have hitems := @items_framed [] frames f.fileId ((framed frames).length + 1)
    (Nat.lt_succ_of_le (length_le_framed frames))
  rw [MappedBlkFile.records, hdata]
  exact hitems

/-- A file that decodes to frames and no further frame is cut behind the frames. -/
theorem openAt_framed (fileId : UInt32) (hne : frames ≠ []) {raw : List UInt8}
    {xorDat : Option (List UInt8)}
    (hraw : decodedBytes raw (readXorKey xorDat) = framed frames ++ rest)
    (hstop : ∀ len, ¬FrameAt (framed frames ++ rest) (framed frames).length len) :
    ∃ f, MappedBlkFile.openAt fileId (some raw) xorDat = .ok f ∧ f.fileId = fileId ∧
      f.data = framed frames ∧ f.dataEnd = (framed frames).length := by
  cases hkey : readXorKey xorDat with
  | none =>
      rw [hkey] at hraw
      obtain rfl : raw = framed frames ++ rest := hraw
      have hend := recordWalkEnd_of_walk hne (walkLoop_framed_end hstop)
      refine ⟨_, rfl, rfl, ?_, ?_⟩
      · simp only [hkey, hend, Option.map_none, MappedBlkFile.data]
        exact List.take_left
      · simp only [hkey, hend]
  | some key =>
      rw [hkey] at hraw
      have hmask : mask (keyByte key) 0 raw = framed frames ++ rest := by
        rw [← xorDecode_eq_mask]
        exact hraw
      have hend : recordWalkEnd raw (some key) = (framed frames).length := by
        apply recordWalkEnd_of_walk hne
        have hlength : raw.length = (framed frames ++ rest).length := by
          rw [← hmask, length_mask]
        rw [walkLoop_key, hmask, hlength]
        exact walkLoop_framed_end hstop
      refine ⟨_, rfl, rfl, ?_, ?_⟩
      · simp only [hkey, hend, Option.map_some, MappedBlkFile.data, xorDecode_eq_mask, hmask]
        exact List.take_left
      · simp only [hkey, hend]

theorem openAt_readsBack (fileId : UInt32) (hne : frames ≠ []) {raw : List UInt8}
    {xorDat : Option (List UInt8)}
    (hraw : decodedBytes raw (readXorKey xorDat) = framed frames ++ rest)
    (hstop : ∀ len, ¬FrameAt (framed frames ++ rest) (framed frames).length len)
    (hlt : (framed frames).length < 2 ^ 32) :
    ReadsBack fileId frames (MappedBlkFile.openAt fileId (some raw) xorDat) := by
  obtain ⟨f, hopen, rfl, hdata, -⟩ := openAt_framed fileId hne hraw hstop
  rw [hopen]
  exact readsBack_of_data hdata (by rw [hdata]; exact hlt)

/-- A file of frames, plain with whatever may follow the last record, or obfuscated
with zero bytes on disk behind it, is read back record by record. -/
theorem openAt_reads_frames (fileId : UInt32) (frames : List BlkFrame) (hne : frames ≠ []) :
    (∀ tail, FileTail tail → (framed frames ++ tail).length < 2 ^ 32 →
      ReadsBack fileId frames
        (MappedBlkFile.openAt fileId (some (framed frames ++ tail)) none)) ∧
    ∀ (key : Bytes 8) (count : Nat),
      (∀ i < 8, isKnownNetworkMagic (keyWord key i) = false) →
      (framed frames).length + count < 2 ^ 32 →
      ReadsBack fileId frames
        (MappedBlkFile.openAt fileId
          (some (mask (keyByte key) 0 (framed frames) ++ List.replicate count 0))
          (some key.toList)) := by
  refine ⟨fun tail htail hlt => ?_, fun key count hkey hlt => ?_⟩
  · rw [List.length_append] at hlt
    exact @openAt_readsBack frames tail fileId hne _ none rfl (htail.not_frameAt (framed frames))
      (by omega)
  · by_cases hzero : key.toList = List.replicate 8 0
    · -- A zero key is no key, and masking with it changes nothing.
      have hplain : mask (keyByte key) 0 (framed frames) = framed frames := by
        apply mask_zero
        intro i
        have hi := getElem?_key key (Nat.mod_lt i (by decide : 0 < 8))
        rw [hzero, keyByte_mod, List.getElem?_replicate,
          if_pos (Nat.mod_lt i (by decide))] at hi
        exact (Option.some.inj hi).symm
      have hnone : readXorKey (some key.toList) = none := by
        rw [readXorKey, dif_pos key.toList_length, if_pos hzero]
      rw [hplain]
      refine openAt_readsBack fileId hne ?_ ((FileTail.padding count).not_frameAt _) (by omega)
      rw [hnone]
      rfl
    · have hraw : mask (keyByte key) 0
          (mask (keyByte key) 0 (framed frames) ++ List.replicate count 0) =
          framed frames ++ mask (keyByte key) (framed frames).length (List.replicate count 0) := by
        rw [mask_append, mask_mask, length_mask, Nat.zero_add]
      refine openAt_readsBack fileId hne ?_ (not_frameAt_keyPadding hkey _ count) (by omega)
      rw [readXorKey, dif_pos key.toList_length, if_neg hzero, ← hraw]
      exact xorDecode_eq_mask key _

end RoundTrip

/-! A mainnet record with an 80-byte payload of zeros, padded with zeros, cut short
behind a second record's beginning, and obfuscated. -/

def sampleFrame : BlkFrame where
  magic := blockMagic
  payload := List.replicate 80 0
  known := by decide
  header_le := by decide
  length_lt := by decide

def sampleKey : Bytes 8 := ⟨[0x11, 0x22, 0x33, 0x44, 0x55, 0x66, 0x77, 0x88], rfl⟩

theorem openAt_reads_frames_sample :
    ReadsBack 0 [sampleFrame]
      (MappedBlkFile.openAt 0 (some (framed [sampleFrame] ++ List.replicate 16 0)) none) ∧
    ReadsBack 0 [sampleFrame]
      (MappedBlkFile.openAt 0 (some (framed [sampleFrame] ++ sampleFrame.bytes.take 10)) none) ∧
    ReadsBack 0 [sampleFrame]
      (MappedBlkFile.openAt 0
        (some (mask (keyByte sampleKey) 0 (framed [sampleFrame]) ++ List.replicate 16 0))
        (some sampleKey.toList)) :=
  ⟨(openAt_reads_frames 0 [sampleFrame] (by simp)).1 _ (.padding 16) (by decide),
    (openAt_reads_frames 0 [sampleFrame] (by simp)).1 _
      (.partialFrame sampleFrame 10 (by decide)) (by decide),
    (openAt_reads_frames 0 [sampleFrame] (by simp)).2 sampleKey 16 (by decide) (by decide)⟩

/-! ## Obfuscation is transparent

The walk reads an obfuscated file as it reads the plain one.  What a file without
any record is kept for depends on its first byte on disk, and there the two files
can differ. -/

section Transparent

variable {F : List UInt8} {key : Bytes 8}

theorem readXorKey_toList (h : key ≠ zeroBytes 8) : readXorKey (some key.toList) = some key := by
  have hne : key.toList ≠ List.replicate 8 0 := fun heq =>
    h (List.Vector.toList_injective heq)
  rw [readXorKey, dif_pos key.toList_length, if_neg hne]
  rfl

/-- The items of a file whose meaningful bytes are the first `stop` bytes of `F`. -/
def itemsUpTo (fileId : UInt32) (F : List UInt8) (stop : Nat) : List (Except BlkError BlkRecord) :=
  BlkRecordIter.items ((F.take stop).length + 1) ⟨fileId, F.take stop, 0⟩

theorem readBlkFile_plain (fileId : UInt32) (F : List UInt8) :
    readBlkFile fileId (some F) none = .ok (itemsUpTo fileId F (recordWalkEnd F none)) := rfl

theorem readBlkFile_masked (fileId : UInt32) (F : List UInt8) (hkey : key ≠ zeroBytes 8) :
    readBlkFile fileId (some (mask (keyByte key) 0 F)) (some key.toList) =
      .ok (itemsUpTo fileId F (recordWalkEnd (mask (keyByte key) 0 F) (some key))) := by
  simp only [readBlkFile, MappedBlkFile.openAt, readXorKey_toList hkey, Option.map_some,
    xorDecode_eq_mask, mask_mask]
  rfl

theorem walkLoop_masked (F : List UInt8) (key : Bytes 8) :
    walkLoop (mask (keyByte key) 0 F) (some key) F.length 0 = walkLoop F none F.length 0 := by
  rw [walkLoop_key, mask_mask]

theorem headD_mask_eq_zero (hF : F ≠ []) (key : Bytes 8) :
    (mask (keyByte key) 0 F).headD 0 = 0 ↔ F.headD 0 = keyByte key 0 := by
  cases F with
  | nil => contradiction
  | cons b F => rw [mask_cons, List.headD_cons, List.headD_cons, UInt8.xor_eq_zero_iff]

/-- The iterator finds an item exactly where a frame header's worth of bytes follows
the leading zeros. -/
theorem itemsUpTo_eq_nil_iff (fileId : UInt32) (F : List UInt8) (stop : Nat) :
    itemsUpTo fileId F stop = [] ↔
      ((F.take stop).dropWhile fun b => b == 0).length < 8 := by
  have hsplit := congrArg List.length
    (List.takeWhile_append_dropWhile (p := fun b : UInt8 => b == 0) (l := F.take stop))
  rw [List.length_append] at hsplit
  have hskip : skipPadding (F.take stop) 0 =
      ((F.take stop).takeWhile fun b => b == 0).length := by
    rw [skipPadding, List.drop_zero, Nat.zero_add]
  rw [itemsUpTo, BlkRecordIter.items, BlkRecordIter.next]
  simp only [hskip]
  by_cases hshort : (F.take stop).length <
      ((F.take stop).takeWhile fun b => b == 0).length + 8
  · rw [if_pos hshort]
    exact ⟨fun _ => by omega, fun _ => rfl⟩
  · rw [if_neg hshort]
    -- Whatever is read there, a record or an error, is an item.
    cases readRecord fileId (F.take stop) _ _ _ <;> simp <;> omega

/-- A file kept whole and a file cut to nothing have the same items only when the whole
file has none. -/
theorem itemsUpTo_cut_iff (fileId : UInt32) (F : List UInt8) (p q : Prop) [Decidable p]
    [Decidable q] :
    itemsUpTo fileId F (if ¬p then F.length else 0) =
        itemsUpTo fileId F (if ¬q then F.length else 0) ↔
      (p ↔ q) ∨ (F.dropWhile fun b => b == 0).length < 8 := by
  have hend : itemsUpTo fileId F 0 = [] := (itemsUpTo_eq_nil_iff fileId F 0).mpr (by simp)
  have hwhole : itemsUpTo fileId F F.length = [] ↔ (F.dropWhile fun b => b == 0).length < 8 := by
    rw [itemsUpTo_eq_nil_iff, List.take_length]
  by_cases hp : p <;> by_cases hq : q <;>
    simp [hp, hq, hend, hwhole, eq_comm (a := ([] : List (Except BlkError BlkRecord)))]

/-- Obfuscating a file leaves what the reader finds in it alone exactly when it begins
with a record, or both files start with a zero byte on disk or neither does, or there
is nothing to find. -/
theorem readBlkFile_obfuscated (fileId : UInt32) (F : List UInt8) (key : Bytes 8)
    (hkey : key ≠ zeroBytes 8) :
    readBlkFile fileId (some (mask (keyByte key) 0 F)) (some key.toList) =
        readBlkFile fileId (some F) none ↔
      (∃ len, FrameAt F 0 len) ∨ (F.headD 0 = 0 ↔ F.headD 0 = keyByte key 0) ∨
        (F.dropWhile fun b => b == 0).length < 8 := by
  rw [readBlkFile_plain, readBlkFile_masked fileId F hkey, Except.ok.injEq]
  rcases Decidable.em (F = []) with rfl | hF
  · exact ⟨fun _ => .inr (.inr (by decide)), fun _ => rfl⟩
  simp only [recordWalkEnd, length_mask, walkLoop_masked, ne_eq, headD_mask_eq_zero hF]
  by_cases hwalk : walkLoop F none F.length 0 = 0
  · have hnone : ¬∃ len, FrameAt F 0 len := fun ⟨len, hframe⟩ =>
      walkLoop_eq_zero_iff.mp hwalk len hframe
    rw [hwalk]
    simp only [true_and, hnone, false_or]
    exact (itemsUpTo_cut_iff fileId F _ _).trans (or_congr Iff.comm Iff.rfl)
  · have hframe : ∃ len, FrameAt F 0 len := by
      by_contra hnone
      exact hwalk (walkLoop_eq_zero_iff.mpr fun len hframe => hnone ⟨len, hframe⟩)
    simp [hwalk, hframe]

end Transparent

/-- A plain file that holds the key bytes is a malformed file; obfuscated it is zero
on disk, as padding is. -/
theorem readBlkFile_key_bytes_differ :
    sampleKey ≠ zeroBytes 8 ∧
      readBlkFile 0 (some sampleKey.toList) none =
        .ok [.error (.corrupt 0 0 (.badMagic 0x44332211))] ∧
      readBlkFile 0 (some (mask (keyByte sampleKey) 0 sampleKey.toList)) (some sampleKey.toList) =
        .ok [] ∧
      readBlkFile 0 (some (mask (keyByte sampleKey) 0 sampleKey.toList)) (some sampleKey.toList) ≠
        readBlkFile 0 (some sampleKey.toList) none := by
  refine ⟨by decide, rfl, rfl, ?_⟩
  intro h
  cases h

theorem readBlkFile_obfuscated_sample :
    readBlkFile 0 (some (mask (keyByte sampleKey) 0 (framed [sampleFrame]))) (some sampleKey.toList) =
      readBlkFile 0 (some (framed [sampleFrame])) none :=
  (readBlkFile_obfuscated 0 (framed [sampleFrame]) sampleKey (by decide)).mpr
    (.inl ⟨_, frameAt_bytes [] [] sampleFrame⟩)

end Bidx
