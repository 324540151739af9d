/-!
# Hexadecimal text

Bytes as lower-case digit pairs, the high half first, and the reader that also takes
upper-case digits.
-/

namespace Hex

def digit (n : Nat) : Char := if n < 10 then Char.ofNat (48 + n) else Char.ofNat (87 + n)

def digitValue (c : Char) : Option Nat :=
  let n := c.toNat
  if 48 ≤ n ∧ n ≤ 57 then some (n - 48)
  else if 97 ≤ n ∧ n ≤ 102 then some (n - 87)
  else if 65 ≤ n ∧ n ≤ 70 then some (n - 55)
  else none

def encode : List UInt8 → List Char
  | [] => []
  | b :: bs => digit (b.toNat / 16) :: digit (b.toNat % 16) :: encode bs

def decode : List Char → Option (List UInt8)
  | [] => some []
  | [_] => none
  | high :: low :: rest => do
      let h ← digitValue high
      let l ← digitValue low
      let bs ← decode rest
      return UInt8.ofNat (16 * h + l) :: bs

theorem digitValue_digit {n : Nat} (h : n < 16) : digitValue (digit n) = some n := by
  have hall : ∀ i : Fin 16, digitValue (digit i) = some i.val := by decide
  exact hall ⟨n, h⟩

/-- What is written is read back. -/
theorem decode_encode (bs : List UInt8) : decode (encode bs) = some bs := by
  induction bs with
  | nil => rfl
  | cons b bs ih =>
      have hlt := b.toNat_lt
      have hhalves : 16 * (b.toNat / 16) + b.toNat % 16 = b.toNat := Nat.div_add_mod _ _
      rw [encode, decode, digitValue_digit (by omega), digitValue_digit (by omega), ih]
      simp only [Option.bind_eq_bind, Option.bind_some, hhalves, UInt8.ofNat_toNat]
      rfl

end Hex
