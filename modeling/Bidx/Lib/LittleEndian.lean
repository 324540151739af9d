import Mathlib.Tactic.Ring
import Mathlib.Data.Vector.Basic

/-!
# Fixed-width little-endian byte strings

The `to_le_bytes` / `from_le_bytes` pair of a fixed-width integer, stated once
for every width over natural numbers: `toBytes w n` writes the low `w` bytes of
`n`, `ofBytes` reads a byte string back.  The two are inverse below `256 ^ w`,
and the typed words (`UInt16`, `UInt32`, `UInt64`) inherit the round trip
because their values never leave that range.
-/

namespace LittleEndian

/-- The low `w` bytes of `n`, least significant first. -/
def toBytes : Nat → Nat → List UInt8
  | 0, _ => []
  | w + 1, n => UInt8.ofNat n :: toBytes w (n / 256)

/-- The number a little-endian byte string denotes. -/
def ofBytes : List UInt8 → Nat
  | [] => 0
  | b :: bs => b.toNat + 256 * ofBytes bs

@[simp] theorem toBytes_zero (n : Nat) : toBytes 0 n = [] := rfl

@[simp] theorem toBytes_succ (w n : Nat) :
    toBytes (w + 1) n = UInt8.ofNat n :: toBytes w (n / 256) := rfl

@[simp] theorem ofBytes_nil : ofBytes [] = 0 := rfl

@[simp] theorem ofBytes_cons (b : UInt8) (bs : List UInt8) :
    ofBytes (b :: bs) = b.toNat + 256 * ofBytes bs := rfl

@[simp] theorem length_toBytes (w n : Nat) : (toBytes w n).length = w := by
  induction w generalizing n with
  | zero => rfl
  | succ w ih => simp only [toBytes_succ, List.length_cons, ih]

/-- Writing keeps exactly the low `w` bytes. -/
theorem ofBytes_toBytes (w n : Nat) : ofBytes (toBytes w n) = n % 256 ^ w := by
  induction w generalizing n with
  | zero => simp [Nat.mod_one]
  | succ w ih =>
      have hbyte : (UInt8.ofNat n).toNat = n % 256 := by simp
      rw [toBytes_succ, ofBytes_cons, ih, hbyte, pow_succ', Nat.mod_mul]

/-- A byte string of length `w` denotes a number below `256 ^ w`. -/
theorem ofBytes_lt (bs : List UInt8) : ofBytes bs < 256 ^ bs.length := by
  induction bs with
  | nil => simp
  | cons b bs ih =>
      have hb : b.toNat < 256 := b.toNat_lt
      rw [ofBytes_cons, List.length_cons, pow_succ]
      omega

/-- Reading and writing back is the identity: no byte string is lost. -/
theorem toBytes_ofBytes (bs : List UInt8) :
    toBytes bs.length (ofBytes bs) = bs := by
  induction bs with
  | nil => rfl
  | cons b bs ih =>
      have hb : b.toNat < 256 := b.toNat_lt
      have hlow : UInt8.ofNat (b.toNat + 256 * ofBytes bs) = b := by
        apply UInt8.toNat_inj.mp
        rw [UInt8.toNat_ofNat']
        omega
      have hhigh : (b.toNat + 256 * ofBytes bs) / 256 = ofBytes bs := by omega
      rw [ofBytes_cons, List.length_cons, toBytes_succ, hlow, hhigh, ih]

/-- The round trip at a number that fits the width. -/
theorem ofBytes_toBytes_of_lt {w n : Nat} (h : n < 256 ^ w) :
    ofBytes (toBytes w n) = n := by
  rw [ofBytes_toBytes, Nat.mod_eq_of_lt h]

@[simp] theorem ofBytes_toBytes_u32 (x : UInt32) :
    UInt32.ofNat (ofBytes (toBytes 4 x.toNat)) = x := by
  rw [ofBytes_toBytes_of_lt (x.toNat_lt.trans_le (by norm_num)), UInt32.ofNat_toNat]

@[simp] theorem ofBytes_toBytes_u64 (x : UInt64) :
    UInt64.ofNat (ofBytes (toBytes 8 x.toNat)) = x := by
  rw [ofBytes_toBytes_of_lt (x.toNat_lt.trans_le (by norm_num)), UInt64.ofNat_toNat]

/-- A four-byte string is what its `u32` writes back. -/
theorem toBytes_ofBytes_u32 {bs : List UInt8} (h : bs.length = 4) :
    toBytes 4 (UInt32.ofNat (ofBytes bs)).toNat = bs := by
  have hlt : ofBytes bs < 2 ^ 32 := by
    have := ofBytes_lt bs
    rw [h] at this
    exact this.trans_le (by norm_num)
  rw [UInt32.toNat_ofNat', Nat.mod_eq_of_lt hlt, ← h, toBytes_ofBytes]

/-- An eight-byte string is what its `u64` writes back. -/
theorem toBytes_ofBytes_u64 {bs : List UInt8} (h : bs.length = 8) :
    toBytes 8 (UInt64.ofNat (ofBytes bs)).toNat = bs := by
  have hlt : ofBytes bs < 2 ^ 64 := by
    have := ofBytes_lt bs
    rw [h] at this
    exact this.trans_le (by norm_num)
  rw [UInt64.toNat_ofNat', Nat.mod_eq_of_lt hlt, ← h, toBytes_ofBytes]

/-! ## Fixed-length arrays cut from a byte string -/

/-- The `n` bytes of `bs` from `start` on as a fixed-length array, zero filled
where `bs` is too short (`copy_from_slice` out of a checked slice). -/
def arrayAt (n : Nat) (bs : List UInt8) (start : Nat) : List.Vector UInt8 n :=
  ⟨((bs.drop start).take n).takeD n 0, List.takeD_length ..⟩

/-- Where the bytes are there, the array holds exactly them. -/
theorem arrayAt_toList {n start : Nat} {bs : List UInt8} (h : n ≤ (bs.drop start).length) :
    (arrayAt n bs start).toList = (bs.drop start).take n := by
  change ((bs.drop start).take n).takeD n 0 = _
  rw [List.takeD_eq_take]
  · rw [List.take_take, Nat.min_self]
  · rw [List.length_take]
    omega

/-- An array is read back where the bytes from the offset on start with it. -/
theorem arrayAt_of_drop {n start : Nat} {bs : List UInt8} (a : List.Vector UInt8 n)
    {post : List UInt8} (h : bs.drop start = a.toList ++ post) : arrayAt n bs start = a := by
  apply List.Vector.toList_injective
  have hlen : a.toList.length = n := a.toList_length
  rw [arrayAt_toList (by rw [h, List.length_append]; omega), h, List.take_left' hlen]

end LittleEndian
