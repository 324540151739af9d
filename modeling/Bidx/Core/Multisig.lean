import Bidx.Core.Script
import Mathlib.Tactic.Common

/-!
# The bare multisig grammar

`is_bare_multisig` walks the key pushes of `OP_m <keys> OP_n OP_CHECKMULTISIG`
and compares how many there are with `n`.  The walk stops at the two closing
bytes exactly when what stands between them is a sequence of key pushes.  The
count is a `u8`, and so the comparison is one modulo 256.
-/

namespace Bidx

/-- `OP_1`..`OP_16`, the opcode of a number. -/
def opNumber (k : Nat) : UInt8 := UInt8.ofNat (0x50 + k)

/-- A compressed or an uncompressed public key. -/
def IsKey (key : List UInt8) : Prop := key.length = 33 ∨ key.length = 65

/-- Each key behind its length byte. -/
def keyPushes : List (List UInt8) → List UInt8
  | [] => []
  | key :: keys => UInt8.ofNat key.length :: (key ++ keyPushes keys)

/-- `OP_m ‖ key pushes ‖ OP_n ‖ OP_CHECKMULTISIG`. -/
def multisigScript (m : Nat) (keys : List (List UInt8)) (n : Nat) : List UInt8 :=
  opNumber m :: (keyPushes keys ++ [opNumber n, 0xae])

/-- The form of a bare multisig script, with any number of keys. -/
structure MultisigForm (spk : List UInt8) (m : Nat) (keys : List (List UInt8)) (n : Nat) :
    Prop where
  one_le : 1 ≤ m
  le : m ≤ n
  le_sixteen : n ≤ 16
  isKey : ∀ key ∈ keys, IsKey key
  spk_eq : spk = multisigScript m keys n

/-- Bare `m`-of-`n`: the form, with `n` keys. -/
def IsMultisig (spk : List UInt8) : Prop :=
  ∃ m keys n, MultisigForm spk m keys n ∧ keys.length = n

/-- The form with `n + 256`, `n + 512`, .. keys. -/
def IsOverfullMultisig (spk : List UInt8) : Prop :=
  ∃ m keys n, MultisigForm spk m keys n ∧ n < keys.length ∧ keys.length % 256 = n

/-! ## The walk over the pushes -/

theorem IsKey.length_byte {key : List UInt8} (h : IsKey key) :
    (UInt8.ofNat key.length).toNat = key.length := by
  rcases h with h | h <;> simp [h]

/-- Read from the front, a sequence of key pushes is one push and a sequence again. -/
theorem cons_eq_keyPushes {b : UInt8} {rest : List UInt8} {keys : List (List UInt8)}
    (hkeys : ∀ key ∈ keys, IsKey key) (h : b :: rest = keyPushes keys) :
    (b.toNat = 33 ∨ b.toNat = 65) ∧ b.toNat ≤ rest.length ∧
      ∃ tail, keys = rest.take b.toNat :: tail ∧ rest.drop b.toNat = keyPushes tail := by
  cases keys with
  | nil => simp [keyPushes] at h
  | cons key tail =>
      obtain ⟨rfl, rfl⟩ := List.cons.inj h
      have hkey := hkeys key List.mem_cons_self
      rw [hkey.length_byte]
      refine ⟨hkey, by simp, tail, ?_, ?_⟩
      · rw [List.take_left]
      · rw [List.drop_left]

/-- One push in front of a sequence of key pushes. -/
theorem cons_eq_keyPushes_take {b : UInt8} {rest : List UInt8} {tail : List (List UInt8)}
    (hb : b.toNat ≤ rest.length) (h : rest.drop b.toNat = keyPushes tail) :
    b :: rest = keyPushes (rest.take b.toNat :: tail) := by
  rw [keyPushes, ← h, List.take_append_drop, List.length_take_of_le hb, UInt8.ofNat_toNat]

/-- The `u8` count one push further on. -/
theorem count_succ (count : UInt8) (k : Nat) :
    count + 1 + UInt8.ofNat k = count + UInt8.ofNat (k + 1) := by
  rw [UInt8.ofNat_add, UInt8.add_assoc, UInt8.add_comm (UInt8.ofNat k)]
  rfl

/-- From the end of a prefix on, the walk accepts the key pushes up to the two closing
bytes, and then compares the count. -/
theorem multisigWalk_iff (n x y : UInt8) (fuel : Nat) (pre body : List UInt8) (count : UInt8)
    (hfuel : body.length < fuel) :
    multisigWalk (pre ++ (body ++ [x, y])) n fuel pre.length count = true ↔
      ∃ keys, (∀ key ∈ keys, IsKey key) ∧ body = keyPushes keys ∧
        count + UInt8.ofNat keys.length = n := by
  induction fuel generalizing pre body count with
  | zero => exact absurd hfuel (Nat.not_lt_zero _)
  | succ fuel ih =>
      have hlen : (pre ++ (body ++ [x, y])).length - 2 = pre.length + body.length := by
        simp
        omega
      rw [multisigWalk]
      simp only [hlen]
      cases body with
      | nil =>
          simp only [List.length_nil, Nat.add_zero, lt_irrefl, dite_false, decide_true,
            Bool.true_and, beq_iff_eq]
          constructor
          · rintro rfl
            exact ⟨[], by simp, rfl, by simp⟩
          · rintro ⟨keys, -, hbody, hcount⟩
            cases keys with
            | nil => simpa using hcount
            | cons key keys => simp [keyPushes] at hbody
      | cons b rest =>
          have hin : pre.length < pre.length + (b :: rest).length := by simp
          have hlt : pre.length < (pre ++ (b :: rest ++ [x, y])).length := by simp
          have hget : (pre ++ (b :: rest ++ [x, y]))[pre.length] = b := by simp
          simp only [dif_pos hin, hget]
          by_cases hpush : b.toNat ≠ 33 ∧ b.toNat ≠ 65
          · -- Not a key push: no sequence of key pushes starts with this byte.
            rw [if_pos hpush]
            simp only [Bool.false_eq_true, false_iff]
            rintro ⟨keys, hkeys, hbody, -⟩
            obtain ⟨hb, -, -⟩ := cons_eq_keyPushes hkeys hbody
            exact hb.elim hpush.1 hpush.2
          rw [if_neg hpush]
          by_cases hlong : rest.length < b.toNat
          · -- The key would reach into the two closing bytes.
            rw [if_pos (by simp only [List.length_cons]; omega)]
            simp only [Bool.false_eq_true, false_iff]
            rintro ⟨keys, hkeys, hbody, -⟩
            obtain ⟨-, hle, -⟩ := cons_eq_keyPushes hkeys hbody
            omega
          rw [if_neg (by simp only [List.length_cons]; omega)]
          have hle : b.toNat ≤ rest.length := Nat.le_of_not_lt hlong
          have hspk : pre ++ (b :: rest ++ [x, y]) =
              (pre ++ b :: rest.take b.toNat) ++ (rest.drop b.toNat ++ [x, y]) := by
            simp only [List.append_assoc, List.cons_append]
            rw [← List.append_assoc (rest.take b.toNat), List.take_append_drop]
          have hpos : pre.length + 1 + b.toNat = (pre ++ b :: rest.take b.toNat).length := by
            simp only [List.length_append, List.length_cons, List.length_take_of_le hle]
            omega
          have hfuel' : (rest.drop b.toNat).length < fuel := by
            simp only [List.length_cons] at hfuel
            simp only [List.length_drop]
            omega
          rw [hspk, hpos, ih _ _ _ hfuel']
          constructor
          · rintro ⟨tail, htail, hrest, hcount⟩
            refine ⟨rest.take b.toNat :: tail, ?_, cons_eq_keyPushes_take hle hrest, ?_⟩
            · rw [List.forall_mem_cons]
              refine ⟨?_, htail⟩
              rw [IsKey, List.length_take_of_le hle]
              omega
            · rw [List.length_cons, ← count_succ, hcount]
          · rintro ⟨keys, hkeys, hbody, hcount⟩
            obtain ⟨-, -, tail, rfl, hrest⟩ := cons_eq_keyPushes hkeys hbody
            refine ⟨tail, (List.forall_mem_cons.mp hkeys).2, hrest, ?_⟩
            rw [count_succ, ← List.length_cons, hcount]

/-! ## What the test accepts -/

/-- A script of three bytes or more is its first byte, a body and two closing bytes. -/
theorem exists_ends {spk : List UInt8} (h : 3 ≤ spk.length) :
    ∃ a body x y, spk = a :: (body ++ [x, y]) := by
  obtain ⟨a, rest, rfl⟩ := List.exists_cons_of_length_pos (by omega : 0 < spk.length)
  rw [List.length_cons] at h
  obtain ⟨init, y, rfl⟩ := List.eq_nil_or_concat' rest |>.resolve_left (by rintro rfl; simp at h)
  rw [List.length_append, List.length_singleton] at h
  obtain ⟨body, x, rfl⟩ := List.eq_nil_or_concat' init |>.resolve_left (by rintro rfl; simp at h)
  exact ⟨a, body, x, y, by simp⟩

theorem opNumber_toNat {k : Nat} (h : k ≤ 16) : (opNumber k).toNat = 0x50 + k := by
  rw [opNumber, UInt8.toNat_ofNat']
  omega

/-- The opcodes the test lets through are those of 1..16. -/
theorem opNumber_range {op : UInt8} :
    (0x51 ≤ op ∧ op ≤ 0x60) ↔ ∃ k, 1 ≤ k ∧ k ≤ 16 ∧ op = opNumber k := by
  constructor
  · rintro ⟨hlo, hhi⟩
    rw [UInt8.le_iff_toNat_le] at hlo hhi
    have hlo' : 0x51 ≤ op.toNat := hlo
    have hhi' : op.toNat ≤ 0x60 := hhi
    refine ⟨op.toNat - 0x50, by omega, by omega, ?_⟩
    rw [opNumber, Nat.add_sub_cancel' (by omega), UInt8.ofNat_toNat]
  · rintro ⟨k, hlo, hhi, rfl⟩
    rw [UInt8.le_iff_toNat_le, UInt8.le_iff_toNat_le, opNumber_toNat hhi]
    exact ⟨by simp; omega, by simp; omega⟩

/-- `op - 0x50`. -/
theorem opNumber_sub (k : Nat) : opNumber k - 0x50 = UInt8.ofNat k := by
  rw [opNumber, UInt8.ofNat_add, UInt8.add_comm]
  exact UInt8.add_sub_cancel _ _

/-- The test on a script given by its ends and its body. -/
theorem isBareMultisig_ends (a : UInt8) (body : List UInt8) (x y : UInt8) :
    isBareMultisig (a :: (body ++ [x, y])) = true ↔
      y = 0xae ∧ (0x51 ≤ a ∧ a ≤ 0x60) ∧ (0x51 ≤ x ∧ x ≤ 0x60) ∧
        ¬(a - 0x50 = 0 ∨ x - 0x50 = 0 ∨ x - 0x50 < a - 0x50) ∧
        multisigWalk (a :: (body ++ [x, y])) (x - 0x50) (body.length + 3) 1 0 = true := by
  have hlen : (a :: (body ++ [x, y])).length = body.length + 3 := by simp
  rw [isBareMultisig, dif_pos (by omega)]
  have hlt₁ : (a :: (body ++ [x, y])).length - 1 < (a :: (body ++ [x, y])).length := by simp
  have hlt₂ : (a :: (body ++ [x, y])).length - 2 < (a :: (body ++ [x, y])).length := by simp
  have hlast : (a :: (body ++ [x, y]))[(a :: (body ++ [x, y])).length - 1] = y := by simp
  have hn : (a :: (body ++ [x, y]))[(a :: (body ++ [x, y])).length - 2] = x := by simp
  simp only [hlast, hn, List.getElem_cons_zero]
  by_cases hy : y = 0xae
  · rw [if_neg (by simpa using hy)]
    by_cases hrange : ¬(0x51 ≤ a ∧ a ≤ 0x60) ∨ ¬(0x51 ≤ x ∧ x ≤ 0x60)
    · rw [if_pos hrange]
      simp only [Bool.false_eq_true, false_iff]
      rintro ⟨-, ha, hx, -⟩
      exact hrange.elim (fun h => h ha) (fun h => h hx)
    · rw [if_neg hrange]
      rw [not_or, not_not, not_not] at hrange
      by_cases hord : a - 0x50 = 0 ∨ x - 0x50 = 0 ∨ x - 0x50 < a - 0x50
      · simp [hord]
      · rw [if_neg hord, hlen]
        simp [hy, hrange, hord]
  · rw [if_pos (by simpa using hy)]
    simp [hy]

/-- `is_bare_multisig`: the form, and a number of keys that the `u8` counter cannot tell
from `n`. -/
theorem isBareMultisig_iff (spk : List UInt8) :
    isBareMultisig spk = true ↔
      ∃ m keys n, MultisigForm spk m keys n ∧ keys.length % 256 = n := by
  constructor
  · intro h
    have hlen : 3 ≤ spk.length := by
      by_contra hlen
      rw [isBareMultisig, dif_neg hlen] at h
      contradiction
    obtain ⟨a, body, x, y, rfl⟩ := exists_ends hlen
    obtain ⟨rfl, ha, hx, hord, hwalk⟩ := (isBareMultisig_ends a body x y).mp h
    obtain ⟨m, hm, hm16, rfl⟩ := opNumber_range.mp ha
    obtain ⟨n, hn, hn16, rfl⟩ := opNumber_range.mp hx
    rw [opNumber_sub] at hwalk
    have hstart := multisigWalk_iff (UInt8.ofNat n) (opNumber n) 0xae (body.length + 3)
      [opNumber m] body 0 (by omega)
    obtain ⟨keys, hkeys, rfl, hcount⟩ := hstart.mp hwalk
    rw [opNumber_sub, opNumber_sub, UInt8.lt_iff_toNat_lt, UInt8.toNat_ofNat',
      UInt8.toNat_ofNat'] at hord
    have hcount' := congrArg UInt8.toNat hcount
    rw [UInt8.zero_add, UInt8.toNat_ofNat', UInt8.toNat_ofNat'] at hcount'
    exact ⟨m, keys, n, ⟨hm, by omega, hn16, hkeys, rfl⟩, by omega⟩
  · rintro ⟨m, keys, n, ⟨hm, hmn, hn16, hkeys, rfl⟩, hcount⟩
    rw [multisigScript, isBareMultisig_ends, opNumber_sub, opNumber_sub]
    refine ⟨rfl, opNumber_range.mpr ⟨m, hm, by omega, rfl⟩,
      opNumber_range.mpr ⟨n, by omega, hn16, rfl⟩, ?_, ?_⟩
    · have hm0 : (UInt8.ofNat m).toNat = m := by
        rw [UInt8.toNat_ofNat']
        omega
      have hn0 : (UInt8.ofNat n).toNat = n := by
        rw [UInt8.toNat_ofNat']
        omega
      rw [← UInt8.toNat_inj, ← UInt8.toNat_inj, UInt8.lt_iff_toNat_lt, hm0, hn0]
      simp
      omega
    · have hstart := multisigWalk_iff (UInt8.ofNat n) (opNumber n) 0xae
        ((keyPushes keys).length + 3) [opNumber m] (keyPushes keys) 0 (by omega)
      refine hstart.mpr ⟨keys, hkeys, rfl, ?_⟩
      rw [UInt8.zero_add, ← UInt8.toNat_inj, UInt8.toNat_ofNat', UInt8.toNat_ofNat']
      omega

/-! ## One reading -/

theorem keyPushes_inj {keys keys' : List (List UInt8)} (hkeys : ∀ key ∈ keys, IsKey key)
    (hkeys' : ∀ key ∈ keys', IsKey key) (h : keyPushes keys = keyPushes keys') : keys = keys' := by
  induction keys generalizing keys' with
  | nil =>
      cases keys' with
      | nil => rfl
      | cons key' tail' => simp [keyPushes] at h
  | cons key tail ih =>
      obtain ⟨hkey, htail⟩ := List.forall_mem_cons.mp hkeys
      obtain ⟨-, -, tail', rfl, hrest⟩ := cons_eq_keyPushes hkeys' h
      rw [hkey.length_byte, List.drop_left] at hrest
      rw [hkey.length_byte, List.take_left]
      rw [ih htail (List.forall_mem_cons.mp hkeys').2 hrest]

/-- A script has the form in one way only. -/
theorem MultisigForm.unique {spk : List UInt8} {m m' n n' : Nat} {keys keys' : List (List UInt8)}
    (h : MultisigForm spk m keys n) (h' : MultisigForm spk m' keys' n') :
    keys = keys' ∧ n = n' := by
  have heq := h.spk_eq.symm.trans h'.spk_eq
  obtain ⟨-, hrest⟩ := List.cons.inj heq
  obtain ⟨hbody, hends⟩ := List.append_inj' hrest rfl
  refine ⟨keyPushes_inj h.isKey h'.isKey hbody, ?_⟩
  have hop := congrArg UInt8.toNat (List.cons.inj hends).1
  rw [opNumber_toNat h.le_sixteen, opNumber_toNat h'.le_sixteen] at hop
  omega

theorem IsMultisig.not_isOverfullMultisig {spk : List UInt8} (h : IsMultisig spk) :
    ¬IsOverfullMultisig spk := by
  obtain ⟨m, keys, n, hform, hcount⟩ := h
  rintro ⟨m', keys', n', hform', hlt, -⟩
  obtain ⟨rfl, rfl⟩ := hform.unique hform'
  omega

theorem isBareMultisig_iff_or (spk : List UInt8) :
    isBareMultisig spk = true ↔ IsMultisig spk ∨ IsOverfullMultisig spk := by
  rw [isBareMultisig_iff]
  constructor
  · rintro ⟨m, keys, n, hform, hmod⟩
    have hle := Nat.mod_le keys.length 256
    rcases (hmod ▸ hle).lt_or_eq with hlt | heq
    · exact Or.inr ⟨m, keys, n, hform, hlt, hmod⟩
    · exact Or.inl ⟨m, keys, n, hform, heq.symm⟩
  · rintro (⟨m, keys, n, hform, rfl⟩ | ⟨m, keys, n, hform, -, hmod⟩)
    · have hsmall := hform.le_sixteen
      exact ⟨m, keys, keys.length, hform, by omega⟩
    · exact ⟨m, keys, n, hform, hmod⟩

/-- The test decides the bare multisig grammar on every script but those whose number of
keys exceeds `n` by a multiple of 256. -/
theorem isBareMultisig_decides_iff (spk : List UInt8) :
    (isBareMultisig spk = true ↔ IsMultisig spk) ↔ ¬IsOverfullMultisig spk := by
  rw [isBareMultisig_iff_or]
  constructor
  · intro h hover
    exact (h.mp (Or.inr hover)).not_isOverfullMultisig hover
  · intro hover
    rw [or_iff_left hover]

/-- `OP_1`, 257 compressed keys, `OP_1 OP_CHECKMULTISIG`. -/
def overfullMultisig : List UInt8 :=
  multisigScript 1 (List.replicate 257 (List.replicate 33 2)) 1

theorem overfullMultisig_form :
    MultisigForm overfullMultisig 1 (List.replicate 257 (List.replicate 33 2)) 1 where
  one_le := by simp
  le := by simp
  le_sixteen := by simp
  isKey key hkey := by
    rw [List.eq_of_mem_replicate hkey]
    exact Or.inl List.length_replicate
  spk_eq := rfl

theorem overfullMultisig_isOverfullMultisig : IsOverfullMultisig overfullMultisig :=
  ⟨1, _, 1, overfullMultisig_form, by rw [List.length_replicate]; decide,
    by rw [List.length_replicate]⟩

/-- The counter is back at one after 257 keys, and the script passes. -/
theorem overfullMultisig_accepted :
    isBareMultisig overfullMultisig = true ∧ ¬IsMultisig overfullMultisig :=
  ⟨(isBareMultisig_iff_or _).mpr (Or.inr overfullMultisig_isOverfullMultisig),
    fun h => h.not_isOverfullMultisig overfullMultisig_isOverfullMultisig⟩

theorem length_keyPushes_ge {keys : List (List UInt8)} (hkeys : ∀ key ∈ keys, IsKey key) :
    34 * keys.length ≤ (keyPushes keys).length := by
  induction keys with
  | nil => simp
  | cons key tail ih =>
      obtain ⟨hkey, htail⟩ := List.forall_mem_cons.mp hkeys
      have hrest := ih htail
      unfold IsKey at hkey
      simp only [keyPushes, List.length_cons, List.length_append]
      omega

/-- The shortest such script is one of 257 compressed keys: below its length the test is
exact. -/
theorem IsOverfullMultisig.le_length {spk : List UInt8} (h : IsOverfullMultisig spk) :
    8741 ≤ spk.length := by
  obtain ⟨m, keys, n, hform, hlt, hmod⟩ := h
  have hlen := congrArg List.length hform.spk_eq
  have hkeys := length_keyPushes_ge hform.isKey
  have hn := hform.one_le.trans hform.le
  simp only [multisigScript, List.length_cons, List.length_append, List.length_nil] at hlen
  omega

end Bidx
