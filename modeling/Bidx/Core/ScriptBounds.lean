import Bidx.Core.Script
import Mathlib.Tactic.Common

/-!
# Every access of `classify_script` is in range

The functions of `Core/Script` once more, with the accesses as the machine makes
them: an index, a slice, a copy or a `usize` difference out of range is a panic,
`none` here, and a conjunction stops at its first false conjunct.  A run of each
function ends in a value, the one its model returns, and the pubkey walk ends
within its fuel.
-/

namespace Bidx

/-- `&spk[lo..hi]`. -/
def sliceChecked (spk : List UInt8) (lo hi : Nat) : Option (List UInt8) :=
  if lo ≤ hi ∧ hi ≤ spk.length then some ((spk.drop lo).take (hi - lo)) else none

/-- `copy_from_slice` into an array of `n` bytes. -/
def copyChecked (n : Nat) (src : List UInt8) : Option (List UInt8) :=
  if src.length = n then some src else none

/-- `a - b` on `usize`. -/
def subChecked (a b : Nat) : Option Nat := if b ≤ a then some (a - b) else none

/-- `spk[i] == byte && ..`, up to the first byte that differs. -/
def bytesAreChecked (spk : List UInt8) : List (Nat × UInt8) → Option Bool
  | [] => some true
  | (i, byte) :: rest =>
      spk[i]?.bind fun actual =>
        if actual == byte then bytesAreChecked spk rest else some false

def isP2pkhChecked (spk : List UInt8) : Option Bool :=
  if spk.length = 25 then
    bytesAreChecked spk [(0, 0x76), (1, 0xa9), (2, 0x14), (23, 0x88), (24, 0xac)]
  else
    some false

def isP2shChecked (spk : List UInt8) : Option Bool :=
  if spk.length = 23 then
    bytesAreChecked spk [(0, 0xa9), (1, 0x14), (22, 0x87)]
  else
    some false

/-- A slice of the script, padded to an address hash. -/
def padSliceChecked (spk : List UInt8) (lo hi : Nat) : Option AddressHash :=
  (sliceChecked spk lo hi).map padSlice

/-- A 20-byte slice, copied into `[u8; 20]` and padded. -/
def pad20Checked (spk : List UInt8) (lo hi : Nat) : Option AddressHash :=
  (sliceChecked spk lo hi).bind fun h => (copyChecked 20 h).map padSlice

def classifyWitnessChecked (spk : List UInt8) : Option (Option (ScriptType × AddressHash)) :=
  if 4 ≤ spk.length ∧ spk.length ≤ 42 then
    spk[0]?.bind fun op =>
      spk[1]?.bind fun push =>
        if push.toNat + 2 = spk.length ∧ 2 ≤ push.toNat ∧ push.toNat ≤ 40 then
          if op = 0x00 then
            if push.toNat = 20 then
              (padSliceChecked spk 2 22).map fun h => some (.p2wpkh, h)
            else if push.toNat = 32 then
              (padSliceChecked spk 2 34).map fun h => some (.p2wsh, h)
            else
              (padSliceChecked spk 2 spk.length).map fun h => some (.witnessUnknown, h)
          else if 0x51 ≤ op ∧ op ≤ 0x60 then
            if op = 0x51 ∧ push.toNat = 32 then
              (padSliceChecked spk 2 34).map fun h => some (.p2tr, h)
            else
              (padSliceChecked spk 2 spk.length).map fun h => some (.witnessUnknown, h)
          else
            some none
        else
          some none
  else
    some none

def isOpReturnChecked (spk : List UInt8) : Option Bool :=
  if 1 ≤ spk.length then bytesAreChecked spk [(0, 0x6a)] else some false

def isKeyPushChecked (keyLen : Nat) (spk : List UInt8) : Option Bool :=
  if spk.length = keyLen + 2 then
    bytesAreChecked spk [(0, UInt8.ofNat keyLen), (keyLen + 1, 0xac)]
  else
    some false

def p2pkKeyChecked (spk : List UInt8) : Option (Option (List UInt8)) :=
  (isKeyPushChecked 33 spk).bind fun short =>
    (if short then some true else isKeyPushChecked 65 spk).bind fun push =>
      if push then
        spk[0]?.bind fun pkLen =>
          (sliceChecked spk 1 (1 + pkLen.toNat)).bind fun pk =>
            pk[0]?.map fun first =>
              if 0x02 ≤ first ∧ first ≤ 0x04 then some pk else none
      else
        some none

/-- The pubkey walk; running out of fuel is `none` as well. -/
def multisigWalkChecked (spk : List UInt8) (n : UInt8) : Nat → Nat → UInt8 → Option Bool
  | 0, _, _ => none
  | fuel + 1, i, count =>
      (subChecked spk.length 2).bind fun last =>
        if i < last then
          spk[i]?.bind fun byte =>
            let push := byte.toNat
            if push ≠ 33 ∧ push ≠ 65 then
              some false
            else if last < i + 1 + push then
              some false
            else
              multisigWalkChecked spk n fuel (i + 1 + push) (count + 1)
        else
          some (decide (i = last) && count == n)

def isBareMultisigChecked (spk : List UInt8) : Option Bool :=
  if spk.length < 3 then
    some false
  else
    (subChecked spk.length 1).bind fun last =>
      spk[last]?.bind fun op =>
        if op ≠ 0xae then
          some false
        else
          spk[0]?.bind fun m =>
            (subChecked spk.length 2).bind fun second =>
              spk[second]?.bind fun n =>
                if ¬(0x51 ≤ m ∧ m ≤ 0x60) ∨ ¬(0x51 ≤ n ∧ n ≤ 0x60) then
                  some false
                else if m - 0x50 = 0 ∨ n - 0x50 = 0 ∨ n - 0x50 < m - 0x50 then
                  some false
                else
                  multisigWalkChecked spk (n - 0x50) spk.length 1 0

/-- `classify_script` with every access checked. -/
def classifyScriptChecked (D : Digests) (spk : List UInt8) : Option (ScriptType × AddressHash) :=
  (isP2pkhChecked spk).bind fun p2pkh =>
    if p2pkh then
      (pad20Checked spk 3 23).map fun h => (.p2pkh, h)
    else
      (isP2shChecked spk).bind fun p2sh =>
        if p2sh then
          (pad20Checked spk 2 22).map fun h => (.p2sh, h)
        else
          (classifyWitnessChecked spk).bind fun witness =>
            match witness with
            | some result => some result
            | none =>
                (isOpReturnChecked spk).bind fun opReturn =>
                  if opReturn then
                    some (.opReturn, zeroBytes 32)
                  else
                    (p2pkKeyChecked spk).bind fun key =>
                      match key with
                      | some pk => some (.p2pk, pad20 (hash160 D pk))
                      | none =>
                          (isBareMultisigChecked spk).map fun multisig =>
                            if multisig then
                              (.bareMultisig, pad20 (hash160 D spk))
                            else
                              (.unknown, zeroBytes 32)

/-! ## The accesses succeed -/

theorem sliceChecked_of_le {spk : List UInt8} {lo hi : Nat} (hlo : lo ≤ hi)
    (hhi : hi ≤ spk.length) : sliceChecked spk lo hi = some ((spk.drop lo).take (hi - lo)) :=
  if_pos ⟨hlo, hhi⟩

theorem subChecked_of_le {a b : Nat} (h : b ≤ a) : subChecked a b = some (a - b) := if_pos h

theorem bytesAreChecked_cons {spk : List UInt8} {i : Nat} (h : i < spk.length) (byte : UInt8)
    (rest : List (Nat × UInt8)) :
    bytesAreChecked spk ((i, byte) :: rest) =
      if spk[i] == byte then bytesAreChecked spk rest else some false := by
  rw [bytesAreChecked, List.getElem?_eq_getElem h, Option.bind_some]

/-- All offsets in range: the chain of comparisons is the conjunction. -/
theorem bytesAreChecked_eq_some {spk : List UInt8} {expected : List (Nat × UInt8)}
    (h : ∀ e ∈ expected, e.1 < spk.length) :
    bytesAreChecked spk expected = some (expected.all fun e => spk[e.1]? == some e.2) := by
  induction expected with
  | nil => rfl
  | cons e rest ih =>
      obtain ⟨hhead, htail⟩ := List.forall_mem_cons.mp h
      rw [bytesAreChecked_cons hhead, ih htail, List.all_cons, List.getElem?_eq_getElem hhead]
      by_cases heq : spk[e.1] = e.2 <;> simp [heq]

theorem isP2pkhChecked_eq (spk : List UInt8) : isP2pkhChecked spk = some (isP2pkh spk) := by
  unfold isP2pkhChecked isP2pkh
  split
  · rename_i hlen
    rw [bytesAreChecked_eq_some (by simp [hlen])]
    simp [hlen, Bool.and_assoc]
  · rfl

theorem isP2shChecked_eq (spk : List UInt8) : isP2shChecked spk = some (isP2sh spk) := by
  unfold isP2shChecked isP2sh
  split
  · rename_i hlen
    rw [bytesAreChecked_eq_some (by simp [hlen])]
    simp [hlen, Bool.and_assoc]
  · rfl

theorem isOpReturnChecked_eq (spk : List UInt8) :
    isOpReturnChecked spk = some (isOpReturn spk) := by
  cases spk with
  | nil => rfl
  | cons op data =>
      unfold isOpReturnChecked isOpReturn
      rw [if_pos (by simp), bytesAreChecked_eq_some (by simp)]
      simp

theorem padSliceChecked_of_le {spk : List UInt8} {lo hi : Nat} (hlo : lo ≤ hi)
    (hhi : hi ≤ spk.length) :
    padSliceChecked spk lo hi = some (padSlice ((spk.drop lo).take (hi - lo))) := by
  rw [padSliceChecked, sliceChecked_of_le hlo hhi, Option.map_some]

theorem pad20Checked_of_le {spk : List UInt8} {lo : Nat} (h : lo + 20 ≤ spk.length) :
    pad20Checked spk lo (lo + 20) = some (padSlice ((spk.drop lo).take 20)) := by
  have hlen : ((spk.drop lo).take 20).length = 20 := by
    rw [List.length_take, List.length_drop]
    omega
  rw [pad20Checked, sliceChecked_of_le (Nat.le_add_right _ _) h, Nat.add_sub_cancel_left,
    Option.bind_some, copyChecked, if_pos hlen, Option.map_some]

theorem classifyWitnessChecked_eq (spk : List UInt8) :
    classifyWitnessChecked spk = some (classifyWitness spk) := by
  unfold classifyWitnessChecked classifyWitness
  by_cases hlen : 4 ≤ spk.length ∧ spk.length ≤ 42
  · rw [if_pos hlen, dif_pos hlen, List.getElem?_eq_getElem (by omega), Option.bind_some,
      List.getElem?_eq_getElem (by omega), Option.bind_some]
    by_cases hpush : spk[1].toNat + 2 = spk.length ∧ 2 ≤ spk[1].toNat ∧ spk[1].toNat ≤ 40
    · simp only [if_pos hpush]
      have hrest : padSliceChecked spk 2 spk.length = some (padSlice (spk.drop 2)) := by
        rw [padSliceChecked_of_le (by omega) le_rfl, List.take_of_length_le (by simp)]
      split
      · split
        · rw [padSliceChecked_of_le (by omega) (by omega)]
          rfl
        · split
          · rw [padSliceChecked_of_le (by omega) (by omega)]
            rfl
          · rw [hrest]
            rfl
      · split
        · split
          · rw [padSliceChecked_of_le (by omega) (by omega)]
            rfl
          · rw [hrest]
            rfl
        · rfl
    · simp only [if_neg hpush]
  · rw [if_neg hlen, dif_neg hlen]

theorem isKeyPushChecked_eq {keyLen : Nat} (hsmall : keyLen < 256) (spk : List UInt8) :
    isKeyPushChecked keyLen spk = some (isKeyPush keyLen spk) := by
  unfold isKeyPushChecked isKeyPush
  split
  · rename_i hlen
    rw [bytesAreChecked_eq_some (by simp [hlen])]
    have hbyte : (spk[0] == UInt8.ofNat keyLen) = (spk[0].toNat == keyLen) := by
      rw [Bool.eq_iff_iff, beq_iff_eq, beq_iff_eq, ← UInt8.toNat_inj, UInt8.toNat_ofNat',
        Nat.mod_eq_of_lt hsmall]
    simp [hlen, hbyte]
  · rfl

/-- The push length of a key push is 33 or 65, and the script has that many bytes more. -/
theorem isKeyPush_headD {keyLen : Nat} {spk : List UInt8} (h : isKeyPush keyLen spk = true) :
    (spk.headD 0).toNat = keyLen ∧ spk.length = keyLen + 2 := by
  unfold isKeyPush at h
  split at h
  · rename_i hlen
    rw [Bool.and_eq_true, beq_iff_eq] at h
    cases spk with
    | nil => simp at hlen
    | cons op rest => exact ⟨h.1, hlen⟩
  · contradiction

theorem p2pkKeyChecked_eq (spk : List UInt8) : p2pkKeyChecked spk = some (p2pkKey spk) := by
  unfold p2pkKeyChecked p2pkKey
  rw [isKeyPushChecked_eq (by omega), Option.bind_some]
  have hor : (if isKeyPush 33 spk then some true else isKeyPushChecked 65 spk) =
      some (isKeyPush 33 spk || isKeyPush 65 spk) := by
    rw [isKeyPushChecked_eq (by omega)]
    cases isKeyPush 33 spk <;> rfl
  rw [hor, Option.bind_some]
  by_cases hpush : (isKeyPush 33 spk || isKeyPush 65 spk) = true
  · rw [if_pos hpush, if_pos hpush]
    obtain ⟨keyLen, hpos, hop, hlen⟩ : ∃ keyLen, 0 < keyLen ∧ (spk.headD 0).toNat = keyLen ∧
        spk.length = keyLen + 2 := by
      rcases Bool.or_eq_true_iff.mp hpush with h | h
      · exact ⟨33, by omega, isKeyPush_headD h⟩
      · exact ⟨65, by omega, isKeyPush_headD h⟩
    cases spk with
    | nil => simp at hlen
    | cons op rest =>
        rw [List.headD_cons] at hop
        simp only [List.length_cons] at hlen
        cases rest with
        | nil => simp at hlen
        | cons first rest =>
            simp only [List.length_cons] at hlen
            rw [List.getElem?_cons_zero, Option.bind_some, hop,
              sliceChecked_of_le (by omega) (by simp; omega), Nat.add_sub_cancel_left,
              Option.bind_some, List.headD_cons, hop]
            obtain ⟨k, rfl⟩ := Nat.exists_eq_add_of_lt hpos
            simp
  · rw [if_neg hpush, if_neg hpush]

/-- The walk reads only inside the script, and each push brings it nearer to the end. -/
theorem multisigWalkChecked_eq {spk : List UInt8} (n : UInt8) (htwo : 2 ≤ spk.length)
    (fuel i : Nat) (count : UInt8) (hfuel : spk.length - 2 < i + fuel) (hpos : 0 < fuel) :
    multisigWalkChecked spk n fuel i count = some (multisigWalk spk n fuel i count) := by
  induction fuel generalizing i count with
  | zero => exact absurd hpos (lt_irrefl _)
  | succ fuel ih =>
      rw [multisigWalkChecked, multisigWalk, subChecked_of_le htwo, Option.bind_some]
      by_cases hi : i < spk.length - 2
      · rw [if_pos hi, dif_pos hi, List.getElem?_eq_getElem (by omega), Option.bind_some]
        by_cases hpush : spk[i].toNat ≠ 33 ∧ spk[i].toNat ≠ 65
        · simp only [if_pos hpush]
        · simp only [if_neg hpush]
          by_cases hlong : spk.length - 2 < i + 1 + spk[i].toNat
          · simp only [if_pos hlong]
          · simp only [if_neg hlong]
            exact ih _ _ (by omega) (by omega)
      · rw [if_neg hi, dif_neg hi]

theorem isBareMultisigChecked_eq (spk : List UInt8) :
    isBareMultisigChecked spk = some (isBareMultisig spk) := by
  unfold isBareMultisigChecked isBareMultisig
  by_cases hlen : spk.length < 3
  · rw [if_pos hlen, dif_neg (by omega)]
  · rw [if_neg hlen, dif_pos (by omega), subChecked_of_le (by omega), Option.bind_some,
      List.getElem?_eq_getElem (by omega), Option.bind_some]
    by_cases hop : spk[spk.length - 1] ≠ 0xae
    · rw [if_pos hop]
      simp only [if_pos hop]
    · rw [if_neg hop, List.getElem?_eq_getElem (by omega), Option.bind_some,
        subChecked_of_le (by omega), Option.bind_some, List.getElem?_eq_getElem (by omega),
        Option.bind_some]
      simp only [if_neg hop]
      split
      · rfl
      · split
        · rfl
        · exact multisigWalkChecked_eq _ (by omega) _ _ _ (by omega) (by omega)

/-- No byte string makes `classify_script` panic. -/
theorem classifyScriptChecked_eq (D : Digests) (spk : List UInt8) :
    classifyScriptChecked D spk = some (classifyScript D spk) := by
  unfold classifyScriptChecked classifyScript
  rw [isP2pkhChecked_eq, Option.bind_some]
  by_cases hpkh : isP2pkh spk = true
  · rw [if_pos hpkh, if_pos hpkh]
    have hlen : spk.length = 25 := by
      by_contra hlen
      rw [isP2pkh, dif_neg hlen] at hpkh
      contradiction
    rw [pad20Checked_of_le (by omega), Option.map_some]
  rw [if_neg hpkh, if_neg hpkh, isP2shChecked_eq, Option.bind_some]
  by_cases hsh : isP2sh spk = true
  · rw [if_pos hsh, if_pos hsh]
    have hlen : spk.length = 23 := by
      by_contra hlen
      rw [isP2sh, dif_neg hlen] at hsh
      contradiction
    rw [pad20Checked_of_le (by omega), Option.map_some]
  rw [if_neg hsh, if_neg hsh, classifyWitnessChecked_eq, Option.bind_some]
  cases classifyWitness spk with
  | some result => rfl
  | none =>
      simp only [isOpReturnChecked_eq, Option.bind_some]
      by_cases hret : isOpReturn spk = true
      · simp only [if_pos hret]
      · simp only [if_neg hret, p2pkKeyChecked_eq, Option.bind_some]
        cases p2pkKey spk with
        | some pk => rfl
        | none =>
            simp only [isBareMultisigChecked_eq, Option.map_some]

end Bidx
