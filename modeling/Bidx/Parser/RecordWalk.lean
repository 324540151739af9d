import Bidx.Parser.BlkFraming

/-!
# The two record walkers agree

Whatever bytes a file holds, they are complete records followed by something that
is not a complete record; `record_walk_end` stops between the two.  In a file that
begins with a record the iterator is handed the records and nothing else.  It yields
them one behind the other and then ends, without an error, and each is found again
under its location.
-/

namespace Bidx

open LittleEndian Keystream

/-- The items of an iterator: records, and then the end. -/
inductive Yields : BlkRecordIter → List BlkRecord → Prop
  | done {it it' : BlkRecordIter} (h : it.next = (none, it')) : Yields it []
  | item {it it' : BlkRecordIter} {rec : BlkRecord} {recs : List BlkRecord}
      (h : it.next = (some (.ok rec), it')) (rest : Yields it' recs) : Yields it (rec :: recs)

/-- The records fill the bytes from `pos` to `stop`, each starting where the last one ends. -/
def Tiles : Nat → Nat → List BlkRecord → Prop
  | pos, stop, [] => pos = stop
  | pos, stop, rec :: recs =>
      rec.location.offset.toNat = pos ∧ Tiles (pos + rec.location.recordLen.toNat) stop recs

/-- `block_bytes` finds the record, and it starts with its header. -/
def ReadableIn (f : MappedBlkFile) (rec : BlkRecord) : Prop :=
  ∃ payload, f.blockBytes rec.location = .ok payload ∧
    payload.take blockHeaderLen = rec.headerRaw.toList

/-- What the iterator makes of an opened file. -/
structure Walked (f : MappedBlkFile) (recs : List BlkRecord) : Prop where
  ne_nil : recs ≠ []
  yields : Yields ⟨f.fileId, f.data, 0⟩ recs
  tiles : Tiles 0 f.data.length recs
  readable : ∀ rec ∈ recs, ReadableIn f rec
  dataEnd : f.dataEnd = f.data.length

/-! ## Bytes as records and a rest -/

/-- A complete record, as the frame it was written from. -/
theorem FrameAt.exists_bytes {pre post : List UInt8} {len : Nat}
    (h : FrameAt (pre ++ post) pre.length len) :
    ∃ f tail, post = BlkFrame.bytes f ++ tail := by
  have hfits := h.fits
  have hlen : 8 + len ≤ post.length := by
    rw [List.length_append] at hfits
    omega
  have hmagic : toBytes 4 (u32At (pre ++ post) pre.length).toNat = post.take 4 := by
    rw [u32At, List.drop_left, toBytes_ofBytes_u32 (List.length_take_of_le (by omega))]
  have hlength : toBytes 4 len = (post.drop 4).take 4 := by
    rw [← h.len_eq, u32At, ← List.drop_drop, List.drop_left,
      toBytes_ofBytes_u32 (List.length_take_of_le (by rw [List.length_drop]; omega))]
  have hpayload : ((post.drop 8).take len).length = len := by
    rw [List.length_take_of_le (by rw [List.length_drop]; omega)]
  have hlt : len < 2 ^ 32 := by
    rw [← h.len_eq]
    exact UInt32.toNat_lt _
  refine ⟨⟨u32At (pre ++ post) pre.length, (post.drop 8).take len, h.known,
    hpayload.symm ▸ h.header_le, hpayload.symm ▸ hlt⟩, (post.drop 8).drop len, ?_⟩
  change post = toBytes 4 (u32At (pre ++ post) pre.length).toNat ++
    (toBytes 4 ((post.drop 8).take len).length ++ (post.drop 8).take len) ++
      (post.drop 8).drop len
  rw [hmagic, hpayload, hlength, List.append_assoc, List.append_assoc, List.take_append_drop,
    show 8 = 4 + 4 by rfl, ← List.drop_drop, List.take_append_drop, List.take_append_drop]

/-- All bytes behind `pre` are frames up to a position where there is none. -/
theorem exists_framed_append (pre post : List UInt8) :
    ∃ frames rest, post = framed frames ++ rest ∧
      ∀ len, ¬FrameAt (pre ++ post) (pre ++ framed frames).length len := by
  by_cases hframe : ∃ len, FrameAt (pre ++ post) pre.length len
  · obtain ⟨len, hframe⟩ := hframe
    obtain ⟨f, tail, rfl⟩ := hframe.exists_bytes
    have hshorter : tail.length < (f.bytes ++ tail).length := by
      rw [List.length_append, BlkFrame.length_bytes]
      omega
    obtain ⟨frames, rest, rfl, hstop⟩ := exists_framed_append (pre ++ f.bytes) tail
    refine ⟨f :: frames, rest, by rw [framed_cons, List.append_assoc], ?_⟩
    rw [framed_cons, ← List.append_assoc pre, ← List.append_assoc pre]
    exact hstop
  · refine ⟨[], post, rfl, ?_⟩
    rw [framed_nil, List.append_nil]
    exact not_exists.mp hframe
termination_by post.length

theorem exists_framed (data : List UInt8) :
    ∃ frames rest, data = framed frames ++ rest ∧
      ∀ len, ¬FrameAt data (framed frames).length len :=
  exists_framed_append [] data

/-! ## The iterator over the records -/

section Walk

variable {frames : List BlkFrame}

theorem yields_framed (fileId : UInt32) (pre : List UInt8) (frames : List BlkFrame) :
    Yields ⟨fileId, pre ++ framed frames, pre.length⟩ (recordsAt fileId pre.length frames) := by
  induction frames generalizing pre with
  | nil =>
      rw [framed_nil, List.append_nil]
      exact .done (next_at_end fileId)
  | cons f frames ih =>
      have hnext := next_of_frame (frameAt_bytes pre (framed frames) f) fileId
      have hpos : pre.length + 8 + f.payload.length = (pre ++ f.bytes).length := by
        simp only [List.length_append, BlkFrame.length_bytes]
        omega
      rw [header_bytes, hpos] at hnext
      have hrest := ih (pre ++ f.bytes)
      rw [List.append_assoc, List.length_append] at hrest
      rw [List.length_append] at hnext
      exact .item hnext hrest

theorem tiles_recordsAt (fileId : UInt32) {pos : Nat} (hlt : pos + (framed frames).length < 2 ^ 32) :
    Tiles pos (pos + (framed frames).length) (recordsAt fileId pos frames) := by
  induction frames generalizing pos with
  | nil => rfl
  | cons f frames ih =>
      rw [framed_cons, List.length_append, BlkFrame.length_bytes] at hlt ⊢
      have hoffset : (UInt64.ofNat pos).toNat = pos := by
        rw [UInt64.toNat_ofNat', Nat.mod_eq_of_lt (by omega)]
      have hlen : (UInt32.ofNat (f.payload.length + 8)).toNat = 8 + f.payload.length := by
        rw [UInt32.toNat_ofNat', Nat.mod_eq_of_lt (by omega), Nat.add_comm]
      have hrest := @ih (pos + f.bytes.length) (by rw [BlkFrame.length_bytes]; omega)
      rw [BlkFrame.length_bytes, Nat.add_assoc] at hrest
      refine ⟨hoffset, ?_⟩
      change Tiles (pos + (UInt32.ofNat (f.payload.length + 8)).toNat) _
        (recordsAt fileId (pos + f.bytes.length) frames)
      rw [hlen, BlkFrame.length_bytes]
      exact hrest

theorem readable_of_forall₂ {f : MappedBlkFile} {fileId : UInt32} {pos : Nat}
    (h : List.Forall₂ (fun rec frame => f.blockBytes rec.location = .ok frame.payload)
      (recordsAt fileId pos frames) frames) :
    ∀ rec ∈ recordsAt fileId pos frames, ReadableIn f rec := by
  induction frames generalizing pos with
  | nil => simp [recordsAt]
  | cons frame frames ih =>
      obtain ⟨hread, hrest⟩ := List.forall₂_cons.mp h
      have hheader : frame.payload.take blockHeaderLen =
          (frame.recordAt fileId pos).headerRaw.toList := by
        change _ = (arrayAt blockHeaderLen frame.payload 0).toList
        rw [arrayAt_toList (by simpa using frame.header_le), List.drop_zero]
      exact List.forall_mem_cons.mpr ⟨⟨_, hread, hheader⟩, ih hrest⟩

/-- The file cut behind its records. -/
theorem walked_of_data {f : MappedBlkFile} (hne : frames ≠ []) (hdata : f.data = framed frames)
    (hend : f.dataEnd = (framed frames).length) (hlt : f.data.length < 2 ^ 32) :
    Walked f (recordsAt f.fileId 0 frames) where
  ne_nil := by
    cases frames with
    | nil => contradiction
    | cons frame frames => exact List.cons_ne_nil _ _
  yields := by
    rw [hdata]
    exact yields_framed f.fileId [] frames
  tiles := by
    have htiles := @tiles_recordsAt frames f.fileId 0 (by rw [Nat.zero_add, ← hdata]; exact hlt)
    rwa [Nat.zero_add, ← hdata] at htiles
  readable := readable_of_forall₂ (@blockBytes_framed frames f f.fileId [] hdata hlt)
  dataEnd := by rw [hdata, hend]

end Walk

/-- **The two walkers agree.**  Of a file below `2 ^ 32` bytes whose bytes, decoded with the key
of the directory if there is one, begin with a complete record, the iterator yields records that
fill exactly what `record_walk_end` left of it, whatever follows them in the file. -/
theorem openAt_walked (fileId : UInt32) (raw : List UInt8) (hlt : raw.length < 2 ^ 32)
    (xorDat : Option (List UInt8)) (len : Nat)
    (hfirst : FrameAt (decodedBytes raw (readXorKey xorDat)) 0 len) :
    ∃ f recs, MappedBlkFile.openAt fileId (some raw) xorDat = .ok f ∧ Walked f recs ∧
      f.records = recs.map .ok := by
  obtain ⟨frames, rest, hraw, hstop⟩ := exists_framed (decodedBytes raw (readXorKey xorDat))
  have hne : frames ≠ [] := by
    rintro rfl
    exact hstop len hfirst
  rw [hraw] at hstop
  obtain ⟨f, hopen, rfl, hdata, hend⟩ := openAt_framed fileId hne hraw hstop
  have hle : f.data.length ≤ raw.length := by
    have hlength := congrArg List.length hraw
    rw [length_decodedBytes, List.length_append, ← hdata] at hlength
    omega
  have hitems := @items_framed [] frames f.fileId (f.data.length + 1)
    (by rw [hdata]; exact Nat.lt_succ_of_le (length_le_framed frames))
  refine ⟨f, recordsAt f.fileId 0 frames, hopen, walked_of_data hne hdata hend (by omega), ?_⟩
  rw [MappedBlkFile.records]
  rw [← hdata] at hitems
  exact hitems

/-- A record behind which the obfuscated file has three more bytes. -/
def sampleLiveFile : List UInt8 := mask (keyByte sampleKey) 0 (framed [sampleFrame] ++ [1, 2, 3])

theorem frameAt_sampleLiveFile :
    FrameAt (decodedBytes sampleLiveFile (readXorKey (some sampleKey.toList))) 0 80 := by
  rw [readXorKey_toList (by decide), decodedBytes, xorDecode_eq_mask, sampleLiveFile, mask_mask]
  exact frameAt_bytes [] [1, 2, 3] sampleFrame

theorem openAt_walked_sample :
    sampleLiveFile.length < 2 ^ 32 ∧
      FrameAt (decodedBytes sampleLiveFile (readXorKey (some sampleKey.toList))) 0 80 ∧
      ∃ f recs, MappedBlkFile.openAt 0 (some sampleLiveFile) (some sampleKey.toList) = .ok f ∧
        Walked f recs ∧ f.records = recs.map .ok :=
  ⟨by decide, frameAt_sampleLiveFile,
    openAt_walked 0 sampleLiveFile (by decide) (some sampleKey.toList) 80 frameAt_sampleLiveFile⟩

end Bidx
