import Bidx.Lib.LittleEndian

/-!
# XOR with a keystream

`mask ks off bs` is the byte string `bs`, read as standing at offset `off` of a
file, XORed with the keystream byte of every offset.  Masking works offset by
offset, so it commutes with cutting a string and undoes itself.

A word-wise implementation masks several bytes at a time by XORing their
little-endian numbers; `toBytes_xor` is why that gives the same bytes.
-/

namespace Keystream

open LittleEndian

/-- `bs` at offset `off`, XORed with the keystream. -/
def mask (ks : Nat → UInt8) : Nat → List UInt8 → List UInt8
  | _, [] => []
  | off, b :: bs => (b ^^^ ks off) :: mask ks (off + 1) bs

variable {ks : Nat → UInt8}

@[simp] theorem mask_nil (off : Nat) : mask ks off [] = [] := rfl

@[simp] theorem mask_cons (off : Nat) (b : UInt8) (bs : List UInt8) :
    mask ks off (b :: bs) = (b ^^^ ks off) :: mask ks (off + 1) bs := rfl

@[simp] theorem length_mask (off : Nat) (bs : List UInt8) :
    (mask ks off bs).length = bs.length := by
  induction bs generalizing off with
  | nil => rfl
  | cons b bs ih => rw [mask_cons, List.length_cons, List.length_cons, ih]

theorem mask_append (off : Nat) (bs bs' : List UInt8) :
    mask ks off (bs ++ bs') = mask ks off bs ++ mask ks (off + bs.length) bs' := by
  induction bs generalizing off with
  | nil => rfl
  | cons b bs ih =>
      rw [List.cons_append, mask_cons, ih, mask_cons, List.cons_append, List.length_cons,
        show off + 1 + bs.length = off + (bs.length + 1) by omega]

/-- Masking twice is the identity. -/
@[simp] theorem mask_mask (off : Nat) (bs : List UInt8) : mask ks off (mask ks off bs) = bs := by
  induction bs generalizing off with
  | nil => rfl
  | cons b bs ih =>
      rw [mask_cons, mask_cons, ih, UInt8.xor_assoc, UInt8.xor_self, UInt8.xor_zero]

/-- Masking with zeros changes nothing. -/
theorem mask_zero (h : ∀ i, ks i = 0) (off : Nat) (bs : List UInt8) : mask ks off bs = bs := by
  induction bs generalizing off with
  | nil => rfl
  | cons b bs ih => rw [mask_cons, h, UInt8.xor_zero, ih]

/-- Each byte is masked by the keystream byte of its own offset. -/
theorem getElem?_mask (off : Nat) (bs : List UInt8) (i : Nat) :
    (mask ks off bs)[i]? = bs[i]?.map (· ^^^ ks (off + i)) := by
  induction bs generalizing off i with
  | nil => rfl
  | cons b bs ih =>
      cases i with
      | zero => rfl
      | succ i =>
          rw [mask_cons, List.getElem?_cons_succ, List.getElem?_cons_succ, ih,
            show off + 1 + i = off + (i + 1) by omega]

theorem take_mask (count off : Nat) (bs : List UInt8) :
    (mask ks off bs).take count = mask ks off (bs.take count) := by
  induction bs generalizing count off with
  | nil => simp
  | cons b bs ih =>
      cases count with
      | zero => rfl
      | succ count => rw [mask_cons, List.take_succ_cons, List.take_succ_cons, mask_cons, ih]

theorem drop_mask (count off : Nat) (bs : List UInt8) :
    (mask ks off bs).drop count = mask ks (off + count) (bs.drop count) := by
  induction bs generalizing count off with
  | nil => simp
  | cons b bs ih =>
      cases count with
      | zero => rfl
      | succ count =>
          rw [mask_cons, List.drop_succ_cons, List.drop_succ_cons, ih,
            show off + 1 + count = off + (count + 1) by omega]

/-- Masking leaves a string alone only where the keystream is zero. -/
theorem mask_eq_self_iff (off : Nat) (bs : List UInt8) :
    mask ks off bs = bs ↔ ∀ i < bs.length, ks (off + i) = 0 := by
  have hbyte : ∀ b k : UInt8, b ^^^ k = b ↔ k = 0 := by
    intro b k
    conv_lhs => rhs; rw [← UInt8.xor_zero (a := b)]
    exact UInt8.xor_right_inj b
  induction bs generalizing off with
  | nil => simp
  | cons b bs ih =>
      simp only [mask_cons, List.cons_eq_cons, hbyte, ih, List.length_cons,
        Nat.forall_lt_succ_left, Nat.add_zero, Nat.add_assoc, Nat.add_comm 1]

/-- Masking with the indices counted from the start of the string. -/
theorem mapIdx_eq_mask (off : Nat) (bs : List UInt8) :
    (bs.mapIdx fun i b => b ^^^ ks (off + i)) = mask ks off bs := by
  induction bs generalizing off with
  | nil => rfl
  | cons b bs ih =>
      rw [List.mapIdx_cons, mask_cons, ← ih]
      simp only [Nat.add_zero, Nat.add_comm 1, Nat.add_assoc]

/-- Masking with the keystream bytes laid out next to the string. -/
theorem zipWith_eq_mask {off : Nat} {bs key : List UInt8}
    (h : ∀ i, i < bs.length → key[i]? = some (ks (off + i))) :
    List.zipWith (· ^^^ ·) bs key = mask ks off bs := by
  induction bs generalizing off key with
  | nil => rfl
  | cons b bs ih =>
      have hhead := h 0 (by simp)
      cases key with
      | nil => contradiction
      | cons k key =>
          obtain rfl := Option.some.inj hhead
          rw [List.zipWith_cons_cons, mask_cons, Nat.add_zero]
          congr 1
          apply ih
          intro i hi
          have hnext := h (i + 1) (by simpa using hi)
          rw [List.getElem?_cons_succ] at hnext
          rw [hnext, show off + 1 + i = off + (i + 1) by omega]

/-- XOR of numbers is XOR of their bytes. -/
theorem toBytes_xor (w a b : Nat) :
    toBytes w (a ^^^ b) = List.zipWith (· ^^^ ·) (toBytes w a) (toBytes w b) := by
  induction w generalizing a b with
  | zero => rfl
  | succ w ih =>
      have hhigh : (a ^^^ b) / 256 = a / 256 ^^^ b / 256 := Nat.xor_div_two_pow (n := 8)
      rw [toBytes_succ, toBytes_succ, toBytes_succ, List.zipWith_cons_cons, hhigh, ih,
        UInt8.ofNat_xor]

end Keystream
