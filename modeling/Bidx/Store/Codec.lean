import Bidx.Core.Types

/-!
# Record encodings of the UTXO store

The default column family maps a 36-byte outpoint key to a 45-byte `UtxoValue`;
the undo column family stores one `BlockUndo` per height.  Both encodings are
exact: a decoded value re-encodes to the very bytes it came from, and an
encoded undo record decodes to itself whatever bytes follow it.
-/

namespace Bidx

open LittleEndian

/-! ## Outpoint keys and UTXO values -/

/-- An outpoint key: `txid(32) || vout(4, little-endian)`. -/
abbrev Key := Bytes 36

/-- `make_key`. -/
def makeKey (txid : Bytes 32) (vout : UInt32) : Key :=
  ⟨txid.toList ++ toBytes 4 vout.toNat, by simp⟩

structure UtxoValue where
  valueSat : UInt64
  scriptType : UInt8
  height : UInt32
  addressHash : Bytes 32
deriving DecidableEq

namespace UtxoValue

/-- `ENCODED_LEN`. -/
def encodedLen : Nat := 8 + 1 + 4 + 32

def encode (v : UtxoValue) : List UInt8 :=
  toBytes 8 v.valueSat.toNat ++ (v.scriptType :: (toBytes 4 v.height.toNat ++
    v.addressHash.toList))

def decode (b : List UInt8) : Option UtxoValue :=
  if b.length ≠ encodedLen then
    none
  else
    some {
      valueSat := UInt64.ofNat (ofBytes (b.take 8))
      scriptType := b.getD 8 0
      height := UInt32.ofNat (ofBytes ((b.drop 9).take 4))
      addressHash := arrayAt 32 b 13 }

@[simp] theorem length_encode (v : UtxoValue) : v.encode.length = encodedLen := by
  simp [encode, encodedLen]

@[simp] theorem decode_encode (v : UtxoValue) : decode v.encode = some v := by
  have hlen : ¬v.encode.length ≠ encodedLen := by simp
  have h8 : (toBytes 8 v.valueSat.toNat).length = 8 := length_toBytes _ _
  have h4 : (toBytes 4 v.height.toNat).length = 4 := length_toBytes _ _
  have hvalue : v.encode.take 8 = toBytes 8 v.valueSat.toNat := by
    rw [encode, List.take_left' h8]
  have hdrop8 : v.encode.drop 8 = v.scriptType :: (toBytes 4 v.height.toNat ++
      v.addressHash.toList) := by
    rw [encode, List.drop_left' h8]
  have htype : v.encode.getD 8 0 = v.scriptType := by
    have hhead : (v.encode.drop 8)[0]? = some v.scriptType := by
      rw [hdrop8]
      rfl
    rw [List.getElem?_drop, Nat.add_zero] at hhead
    rw [List.getD_eq_getElem?_getD, hhead, Option.getD_some]
  have hdrop9 : v.encode.drop 9 = toBytes 4 v.height.toNat ++ v.addressHash.toList := by
    rw [show (9 : Nat) = 8 + 1 from rfl, ← List.drop_drop, hdrop8, List.drop_succ_cons,
      List.drop_zero]
  have hdrop13 : v.encode.drop 13 = v.addressHash.toList ++ [] := by
    rw [show (13 : Nat) = 9 + 4 from rfl, ← List.drop_drop, hdrop9, List.drop_left' h4,
      List.append_nil]
  rw [decode, if_neg hlen, hvalue, htype, hdrop9, List.take_left' h4,
    arrayAt_of_drop v.addressHash hdrop13, ofBytes_toBytes_u64, ofBytes_toBytes_u32]

theorem encode_inj {v w : UtxoValue} (h : v.encode = w.encode) : v = w := by
  have hdecode := congrArg decode h
  rw [decode_encode, decode_encode] at hdecode
  exact Option.some.inj hdecode

/-- A decoded value stands for exactly the bytes it was decoded from. -/
theorem encode_of_decode {b : List UInt8} {v : UtxoValue} (h : decode b = some v) :
    v.encode = b := by
  unfold decode at h
  split at h
  · contradiction
  · rename_i hlen
    have hlen45 : b.length = 45 := not_not.mp hlen
    obtain rfl := Option.some.inj h
    have h8 : (b.take 8).length = 8 := by simp [hlen45]
    have h4 : ((b.drop 9).take 4).length = 4 := by simp [hlen45]
    have h32 : 32 ≤ (b.drop 13).length := by simp [hlen45]
    have htype : b.getD 8 0 :: b.drop 9 = b.drop 8 := by
      rw [List.drop_eq_getElem_cons (by omega : 8 < b.length)]
      simp [hlen45]
    have haddr : (b.drop 13).take 32 = b.drop 13 := by
      rw [List.take_of_length_le (by simp [hlen45])]
    have htail : (b.drop 9).take 4 ++ b.drop 13 = b.drop 9 := by
      rw [show (13 : Nat) = 9 + 4 from rfl, ← List.drop_drop, List.take_append_drop]
    simp only [encode, toBytes_ofBytes_u64 h8, toBytes_ofBytes_u32 h4, arrayAt_toList h32, haddr,
      htail, htype, List.take_append_drop]

end UtxoValue

/-! ## CompactSize in undo records -/

/-- `put_varint` of a `u64` count. -/
def putVarint (n : Nat) : List UInt8 :=
  if n ≤ 0xfc then
    [UInt8.ofNat n]
  else if n ≤ 0xffff then
    0xfd :: toBytes 2 n
  else if n ≤ 0xffffffff then
    0xfe :: toBytes 4 n
  else
    0xff :: toBytes 8 n

/-- Take a `w`-byte little-endian number off the front. -/
def takeWord (w : Nat) (b : List UInt8) : Option (Nat × List UInt8) :=
  if b.length < w then none else some (ofBytes (b.take w), b.drop w)

/-- `read_varint`. -/
def readVarint : List UInt8 → Option (Nat × List UInt8)
  | [] => none
  | first :: b =>
      if first ≤ 0xfc then
        some (first.toNat, b)
      else if first = 0xfd then
        takeWord 2 b
      else if first = 0xfe then
        takeWord 4 b
      else
        takeWord 8 b

theorem takeWord_toBytes {w n : Nat} (hn : n < 256 ^ w) (t : List UInt8) :
    takeWord w (toBytes w n ++ t) = some (n, t) := by
  have hlen : (toBytes w n).length = w := length_toBytes w n
  have hle : ¬(toBytes w n ++ t).length < w := by
    rw [List.length_append]
    omega
  rw [takeWord, if_neg hle, List.take_left' hlen, List.drop_left' hlen, ofBytes_toBytes_of_lt hn]

theorem readVarint_putVarint {n : Nat} (hn : n < 2 ^ 64) (t : List UInt8) :
    readVarint (putVarint n ++ t) = some (n, t) := by
  unfold putVarint
  split_ifs with h1 h2 h3
  · have hbyte : (UInt8.ofNat n).toNat = n := by
      rw [UInt8.toNat_ofNat']
      omega
    have hle : UInt8.ofNat n ≤ 0xfc := by
      rw [UInt8.le_iff_toNat_le, hbyte]
      exact h1
    change readVarint (UInt8.ofNat n :: t) = _
    rw [readVarint, if_pos hle, hbyte]
  · have hlt : n < 256 ^ 2 := by omega
    exact takeWord_toBytes hlt t
  · have hlt : n < 256 ^ 4 := by omega
    exact takeWord_toBytes hlt t
  · have hlt : n < 256 ^ 8 := by omega
    exact takeWord_toBytes hlt t

/-! ## Undo records -/

/-- Everything needed to reverse one block's UTXO mutations. -/
structure BlockUndo where
  spent : List (Key × UtxoValue)
  created : List Key
deriving DecidableEq

namespace BlockUndo

def encode (u : BlockUndo) : List UInt8 :=
  putVarint u.spent.length ++ ((u.spent.map fun e => e.1.toList ++ e.2.encode).flatten ++
    (putVarint u.created.length ++ (u.created.map List.Vector.toList).flatten))

/-- The `n_spent` loop: 81 bytes per entry. -/
def decodeSpent : Nat → List UInt8 → Option (List (Key × UtxoValue) × List UInt8)
  | 0, b => some ([], b)
  | rounds + 1, b =>
      if b.length < 81 then
        none
      else
        match UtxoValue.decode ((b.drop 36).take 45) with
        | none => none
        | some val =>
            match decodeSpent rounds (b.drop 81) with
            | none => none
            | some (spent, rest) => some ((arrayAt 36 b 0, val) :: spent, rest)

/-- The `n_created` loop: 36 bytes per key. -/
def decodeCreated : Nat → List UInt8 → Option (List Key)
  | 0, _ => some []
  | rounds + 1, b =>
      if b.length < 36 then
        none
      else
        match decodeCreated rounds (b.drop 36) with
        | none => none
        | some created => some (arrayAt 36 b 0 :: created)

def decode (b : List UInt8) : Option BlockUndo :=
  match readVarint b with
  | none => none
  | some (nSpent, b) =>
      match decodeSpent nSpent b with
      | none => none
      | some (spent, b) =>
          match readVarint b with
          | none => none
          | some (nCreated, b) =>
              match decodeCreated nCreated b with
              | none => none
              | some created => some ⟨spent, created⟩

theorem decodeSpent_encode (spent : List (Key × UtxoValue)) (t : List UInt8) :
    decodeSpent spent.length ((spent.map fun e => e.1.toList ++ e.2.encode).flatten ++ t) =
      some (spent, t) := by
  induction spent with
  | nil => rfl
  | cons e spent ih =>
      obtain ⟨key, val⟩ := e
      have hkey : key.toList.length = 36 := key.toList_length
      have hval : val.encode.length = 45 := UtxoValue.length_encode val
      have hshape : (((key, val) :: spent).map fun e => e.1.toList ++ e.2.encode).flatten ++ t =
          key.toList ++ (val.encode ++
            ((spent.map fun e => e.1.toList ++ e.2.encode).flatten ++ t)) := by
        simp [List.append_assoc]
      rw [hshape, List.length_cons, decodeSpent,
        if_neg (by simp only [List.length_append]; omega),
        List.drop_left' hkey, List.take_left' hval, UtxoValue.decode_encode,
        show (81 : Nat) = 36 + 45 from rfl, ← List.drop_drop, List.drop_left' hkey,
        List.drop_left' hval]
      simp only [ih, arrayAt_of_drop key (List.drop_zero ..)]

theorem decodeCreated_encode (created : List Key) (t : List UInt8) :
    decodeCreated created.length ((created.map List.Vector.toList).flatten ++ t) =
      some created := by
  induction created with
  | nil => rfl
  | cons key created ih =>
      have hkey : key.toList.length = 36 := key.toList_length
      have hshape : ((key :: created).map List.Vector.toList).flatten ++ t =
          key.toList ++ ((created.map List.Vector.toList).flatten ++ t) := by
        simp [List.append_assoc]
      rw [hshape, List.length_cons, decodeCreated, if_neg (by simp [hkey]),
        List.drop_left' hkey]
      simp only [ih, arrayAt_of_drop key (List.drop_zero ..)]

/-- An encoded record decodes to itself, whatever follows it. -/
theorem decode_encode (u : BlockUndo) (hs : u.spent.length < 2 ^ 64)
    (hc : u.created.length < 2 ^ 64) (t : List UInt8) : decode (u.encode ++ t) = some u := by
  have hshape : u.encode ++ t = putVarint u.spent.length ++
      ((u.spent.map fun e => e.1.toList ++ e.2.encode).flatten ++
        (putVarint u.created.length ++ ((u.created.map List.Vector.toList).flatten ++ t))) := by
    simp [encode, List.append_assoc]
  rw [hshape, decode, readVarint_putVarint hs]
  simp only [decodeSpent_encode, readVarint_putVarint hc, decodeCreated_encode]

end BlockUndo

end Bidx
