import Bidx.Core.Multisig
import Bidx.Core.ScriptBounds

/-!
# The output templates

`classify_script` tries its templates one after the other.  Each of its tests
decides one byte shape, and the shapes exclude each other: the first byte tells
most of them apart, and the length a witness program from a multisig script, which
may both start with `OP_1`..`OP_16`.  The order of the tests therefore decides
nothing.
-/

namespace Bidx

/-- The opcode of a witness version: `OP_0`, or `OP_1`..`OP_16`. -/
def versionOp (version : Nat) : UInt8 :=
  if version = 0 then 0x00 else opNumber version

/-- The version opcode and one push that fills the script. -/
def witnessScript (version : Nat) (program : List UInt8) : List UInt8 :=
  versionOp version :: UInt8.ofNat program.length :: program

/-- Versions 0..16 and programs of 2..40 bytes. -/
structure IsWitness (version : Nat) (program : List UInt8) : Prop where
  version_le : version ≤ 16
  two_le : 2 ≤ program.length
  le_forty : program.length ≤ 40

/-- The byte shape of each template. -/
def HasTemplate : ScriptType → List UInt8 → Prop
  | .p2pkh, spk =>
      ∃ hash : List UInt8, hash.length = 20 ∧ spk = 0x76 :: 0xa9 :: 0x14 :: (hash ++ [0x88, 0xac])
  | .p2sh, spk =>
      ∃ hash : List UInt8, hash.length = 20 ∧ spk = 0xa9 :: 0x14 :: (hash ++ [0x87])
  | .p2wpkh, spk => ∃ program, program.length = 20 ∧ spk = witnessScript 0 program
  | .p2wsh, spk => ∃ program, program.length = 32 ∧ spk = witnessScript 0 program
  | .p2tr, spk => ∃ program, program.length = 32 ∧ spk = witnessScript 1 program
  | .witnessUnknown, spk =>
      ∃ version program, IsWitness version program ∧ spk = witnessScript version program ∧
        ¬(version = 0 ∧ program.length = 20) ∧ ¬(version = 0 ∧ program.length = 32) ∧
          ¬(version = 1 ∧ program.length = 32)
  | .opReturn, spk => ∃ data, spk = 0x6a :: data
  | .p2pk, spk =>
      ∃ first rest, IsKey (first :: rest) ∧ 0x02 ≤ first ∧ first ≤ 0x04 ∧
        spk = UInt8.ofNat (first :: rest).length :: (first :: rest ++ [0xac])
  | .bareMultisig, spk => IsMultisig spk
  | .unknown, _ => False

/-! ## What each test decides -/

/-- A script cut into a front, a middle and a back. -/
theorem exists_middle {spk : List UInt8} {front mid back : Nat}
    (h : spk.length = front + (mid + back)) :
    ∃ f m b, f.length = front ∧ m.length = mid ∧ b.length = back ∧ spk = f ++ (m ++ b) := by
  refine ⟨spk.take front, (spk.drop front).take mid, (spk.drop front).drop mid, ?_, ?_, ?_, ?_⟩
  · simp [h]
  · simp [h]
  · simp [h, ← Nat.add_assoc]
  · rw [List.take_append_drop, List.take_append_drop]

theorem isP2pkh_cut (f0 f1 f2 b0 b1 : UInt8) {hash : List UInt8} (h : hash.length = 20) :
    isP2pkh (f0 :: f1 :: f2 :: (hash ++ [b0, b1])) = true ↔
      f0 = 0x76 ∧ f1 = 0xa9 ∧ f2 = 0x14 ∧ b0 = 0x88 ∧ b1 = 0xac := by
  simp [isP2pkh, h, and_assoc]

theorem isP2pkh_iff (spk : List UInt8) : isP2pkh spk = true ↔ HasTemplate .p2pkh spk := by
  constructor
  · intro h
    have hlen : spk.length = 3 + (20 + 2) := by
      by_contra hlen
      rw [isP2pkh, dif_neg hlen] at h
      contradiction
    obtain ⟨f, hash, b, hf, hhash, hb, rfl⟩ := exists_middle hlen
    obtain ⟨f0, f1, f2, rfl⟩ := List.length_eq_three.mp hf
    obtain ⟨b0, b1, rfl⟩ := List.length_eq_two.mp hb
    obtain ⟨rfl, rfl, rfl, rfl, rfl⟩ := (isP2pkh_cut f0 f1 f2 b0 b1 hhash).mp h
    exact ⟨hash, hhash, rfl⟩
  · rintro ⟨hash, hhash, rfl⟩
    exact (isP2pkh_cut _ _ _ _ _ hhash).mpr ⟨rfl, rfl, rfl, rfl, rfl⟩

theorem isP2sh_cut (f0 f1 b0 : UInt8) {hash : List UInt8} (h : hash.length = 20) :
    isP2sh (f0 :: f1 :: (hash ++ [b0])) = true ↔ f0 = 0xa9 ∧ f1 = 0x14 ∧ b0 = 0x87 := by
  simp [isP2sh, h, and_assoc]

theorem isP2sh_iff (spk : List UInt8) : isP2sh spk = true ↔ HasTemplate .p2sh spk := by
  constructor
  · intro h
    have hlen : spk.length = 2 + (20 + 1) := by
      by_contra hlen
      rw [isP2sh, dif_neg hlen] at h
      contradiction
    obtain ⟨f, hash, b, hf, hhash, hb, rfl⟩ := exists_middle hlen
    obtain ⟨f0, f1, rfl⟩ := List.length_eq_two.mp hf
    obtain ⟨b0, rfl⟩ := List.length_eq_one_iff.mp hb
    obtain ⟨rfl, rfl, rfl⟩ := (isP2sh_cut f0 f1 b0 hhash).mp h
    exact ⟨hash, hhash, rfl⟩
  · rintro ⟨hash, hhash, rfl⟩
    exact (isP2sh_cut _ _ _ hhash).mpr ⟨rfl, rfl, rfl⟩

theorem isOpReturn_iff (spk : List UInt8) : isOpReturn spk = true ↔ HasTemplate .opReturn spk := by
  cases spk with
  | nil => simp [isOpReturn, HasTemplate]
  | cons op data => simp [isOpReturn, HasTemplate]

theorem isKeyPush_cut (f0 b0 : UInt8) (key : List UInt8) :
    isKeyPush key.length (f0 :: (key ++ [b0])) = true ↔ f0.toNat = key.length ∧ b0 = 0xac := by
  simp [isKeyPush]

theorem isKeyPush_iff (keyLen : Nat) (spk : List UInt8) :
    isKeyPush keyLen spk = true ↔
      ∃ (op : UInt8) (key : List UInt8), op.toNat = keyLen ∧ key.length = keyLen ∧
        spk = op :: (key ++ [0xac]) := by
  constructor
  · intro h
    have hlen : spk.length = 1 + (keyLen + 1) := by
      by_contra hlen
      rw [isKeyPush, dif_neg (by omega)] at h
      contradiction
    obtain ⟨f, key, b, hf, rfl, hb, rfl⟩ := exists_middle hlen
    obtain ⟨f0, rfl⟩ := List.length_eq_one_iff.mp hf
    obtain ⟨b0, rfl⟩ := List.length_eq_one_iff.mp hb
    obtain ⟨hop, rfl⟩ := (isKeyPush_cut f0 b0 key).mp h
    exact ⟨f0, key, hop, rfl, rfl⟩
  · rintro ⟨op, key, hop, rfl, rfl⟩
    exact (isKeyPush_cut op 0xac key).mpr ⟨hop, rfl⟩

/-- The key of a pay-to-pubkey script. -/
theorem p2pkKey_eq_some_iff (spk key : List UInt8) :
    p2pkKey spk = some key ↔
      ∃ first rest, key = first :: rest ∧ IsKey key ∧ 0x02 ≤ first ∧ first ≤ 0x04 ∧
        spk = UInt8.ofNat key.length :: (key ++ [0xac]) := by
  constructor
  · intro h
    unfold p2pkKey at h
    split at h
    · rename_i hpush
      obtain ⟨op, key', hop, hkey, rfl⟩ : ∃ (op : UInt8) (key' : List UInt8),
          op.toNat = key'.length ∧ IsKey key' ∧ spk = op :: (key' ++ [0xac]) := by
        rcases Bool.or_eq_true_iff.mp hpush with hpush | hpush
        · obtain ⟨op, key', hop, hlen, rfl⟩ := (isKeyPush_iff _ _).mp hpush
          exact ⟨op, key', hop.trans hlen.symm, Or.inl hlen, rfl⟩
        · obtain ⟨op, key', hop, hlen, rfl⟩ := (isKeyPush_iff _ _).mp hpush
          exact ⟨op, key', hop.trans hlen.symm, Or.inr hlen, rfl⟩
      rw [List.headD_cons, List.drop_one, List.tail_cons, hop, List.take_left] at h
      cases key' with
      | nil => simp at h
      | cons first rest =>
          simp only [Option.ite_none_right_eq_some, Option.some.injEq] at h
          obtain ⟨⟨hlo, hhi⟩, rfl⟩ := h
          exact ⟨first, rest, rfl, hkey, hlo, hhi, by rw [← hop, UInt8.ofNat_toNat]⟩
    · contradiction
  · rintro ⟨first, rest, rfl, hkey, hlo, hhi, rfl⟩
    have hpush : (isKeyPush 33 (UInt8.ofNat (first :: rest).length :: (first :: rest ++ [0xac])) ||
        isKeyPush 65 (UInt8.ofNat (first :: rest).length :: (first :: rest ++ [0xac]))) = true := by
      rw [Bool.or_eq_true, isKeyPush_iff, isKeyPush_iff]
      rcases hkey with hlen | hlen
      · exact Or.inl ⟨_, _, by rw [hlen]; rfl, hlen, rfl⟩
      · exact Or.inr ⟨_, _, by rw [hlen]; rfl, hlen, rfl⟩
    rw [p2pkKey, if_pos hpush, List.headD_cons, hkey.length_byte, List.drop_one, List.tail_cons,
      List.take_left]
    simp [hlo, hhi]

/-! ## Witness programs -/

/-- The type of a witness program, by its version and its length. -/
def witnessType (version length : Nat) : ScriptType :=
  if version = 0 ∧ length = 20 then .p2wpkh
  else if version = 0 ∧ length = 32 then .p2wsh
  else if version = 1 ∧ length = 32 then .p2tr
  else .witnessUnknown

theorem versionOp_range {op : UInt8} :
    (op = 0x00 ∨ (0x51 ≤ op ∧ op ≤ 0x60)) ↔ ∃ version, version ≤ 16 ∧ op = versionOp version := by
  constructor
  · rintro (rfl | h)
    · exact ⟨0, Nat.zero_le _, rfl⟩
    · obtain ⟨k, hk, hk16, rfl⟩ := opNumber_range.mp h
      exact ⟨k, hk16, by rw [versionOp, if_neg (by omega)]⟩
  · rintro ⟨version, hle, rfl⟩
    rw [versionOp]
    split
    · exact Or.inl rfl
    · exact Or.inr (opNumber_range.mpr ⟨version, by omega, hle, rfl⟩)

theorem versionOp_toNat {version : Nat} (h : version ≤ 16) :
    (versionOp version).toNat = if version = 0 then 0 else 0x50 + version := by
  unfold versionOp
  split
  · rfl
  · exact opNumber_toNat h

theorem versionOp_inj {v w : Nat} (hv : v ≤ 16) (hw : w ≤ 16) (h : versionOp v = versionOp w) :
    v = w := by
  have hnat := congrArg UInt8.toNat h
  rw [versionOp_toNat hv, versionOp_toNat hw] at hnat
  split at hnat <;> split at hnat <;> omega

theorem witnessScript_inj {v w : Nat} {p q : List UInt8} (hv : v ≤ 16) (hw : w ≤ 16)
    (h : witnessScript v p = witnessScript w q) : v = w ∧ p = q := by
  obtain ⟨hop, hrest⟩ := List.cons.inj h
  exact ⟨versionOp_inj hv hw hop, (List.cons.inj hrest).2⟩

theorem IsWitness.length_byte {version : Nat} {program : List UInt8}
    (h : IsWitness version program) : (UInt8.ofNat program.length).toNat = program.length := by
  have hle := h.le_forty
  rw [UInt8.toNat_ofNat']
  omega

/-- A script that the segwit branch lets through is a witness script. -/
theorem exists_witnessScript {spk : List UInt8} {result : ScriptType × AddressHash}
    (h : classifyWitness spk = some result) :
    ∃ version program, IsWitness version program ∧ spk = witnessScript version program := by
  unfold classifyWitness at h
  split at h
  · rename_i hlen
    obtain ⟨op, push, program, rfl⟩ : ∃ op push program, spk = op :: push :: program := by
      obtain ⟨f, program, b, hf, -, hb, rfl⟩ :=
        exists_middle (by omega : spk.length = 2 + (spk.length - 2 + 0))
      obtain ⟨op, push, rfl⟩ := List.length_eq_two.mp hf
      obtain rfl := List.length_eq_zero_iff.mp hb
      exact ⟨op, push, program, by simp⟩
    simp only [List.getElem_cons_zero, List.getElem_cons_succ, List.length_cons] at h
    split at h
    · rename_i hpush
      have hop : op = 0x00 ∨ (0x51 ≤ op ∧ op ≤ 0x60) := by
        by_contra hop
        rw [not_or] at hop
        rw [if_neg hop.1, if_neg hop.2] at h
        contradiction
      obtain ⟨version, hle, rfl⟩ := versionOp_range.mp hop
      refine ⟨version, program, ⟨hle, by omega, by omega⟩, ?_⟩
      have hbyte : UInt8.ofNat program.length = push := by
        rw [← Nat.add_right_cancel hpush.1, UInt8.ofNat_toNat]
      rw [witnessScript, hbyte]
    · contradiction
  · contradiction

theorem versionOp_eq_zero_iff {version : Nat} (h : version ≤ 16) :
    versionOp version = 0x00 ↔ version = 0 := by
  rw [← UInt8.toNat_inj, versionOp_toNat h]
  split <;> simp <;> omega

theorem versionOp_eq_one_iff {version : Nat} (h : version ≤ 16) :
    versionOp version = 0x51 ↔ version = 1 := by
  rw [← UInt8.toNat_inj, versionOp_toNat h]
  split <;> simp <;> omega

/-- The segwit branch on a witness script. -/
theorem classifyWitness_witnessScript {version : Nat} {program : List UInt8}
    (h : IsWitness version program) :
    classifyWitness (witnessScript version program) =
      some (witnessType version program.length, padSlice program) := by
  have hlen : (witnessScript version program).length = program.length + 2 := rfl
  have htwo := h.two_le
  have hforty := h.le_forty
  rw [classifyWitness, dif_pos (by omega)]
  have hop : (witnessScript version program)[0] = versionOp version := rfl
  have hpush : (witnessScript version program)[1].toNat = program.length := h.length_byte
  have hdrop : (witnessScript version program).drop 2 = program := rfl
  simp only [hop, hpush, hdrop, hlen, versionOp_eq_zero_iff h.version_le,
    versionOp_eq_one_iff h.version_le]
  rw [if_pos ⟨trivial, htwo, hforty⟩]
  have hrange := versionOp_range.mpr ⟨version, h.version_le, rfl⟩
  rw [versionOp_eq_zero_iff h.version_le] at hrange
  unfold witnessType
  by_cases hzero : version = 0
  · subst hzero
    by_cases h20 : program.length = 20
    · simp [h20, List.take_of_length_le]
    · by_cases h32 : program.length = 32
      · simp [h32, List.take_of_length_le]
      · simp [h20, h32]
  · rw [if_neg hzero, if_pos (hrange.resolve_left hzero)]
    by_cases hone : version = 1 ∧ program.length = 32
    · simp [hone, List.take_of_length_le]
    · simp [hzero, hone]

theorem classifyWitness_eq_some_iff (spk : List UInt8) (result : ScriptType × AddressHash) :
    classifyWitness spk = some result ↔
      ∃ version program, IsWitness version program ∧ spk = witnessScript version program ∧
        result = (witnessType version program.length, padSlice program) := by
  constructor
  · intro h
    obtain ⟨version, program, hw, rfl⟩ := exists_witnessScript h
    rw [classifyWitness_witnessScript hw] at h
    exact ⟨version, program, hw, rfl, (Option.some.inj h).symm⟩
  · rintro ⟨version, program, hw, rfl, rfl⟩
    exact classifyWitness_witnessScript hw

/-! ## The shapes exclude each other -/

/-- The one template a script can have, told by its first byte, its length and the push
length behind a version opcode. -/
def leadingType : List UInt8 → ScriptType
  | [] => .unknown
  | op :: rest =>
      if op = 0x76 then .p2pkh
      else if op = 0xa9 then .p2sh
      else if op = 0x6a then .opReturn
      else if op = 33 ∨ op = 65 then .p2pk
      else if op = 0x00 then
        if rest.length = 21 then .p2wpkh else if rest.length = 33 then .p2wsh else .witnessUnknown
      else if (rest.headD 0).toNat + 1 = rest.length then
        if op = 0x51 ∧ rest.length = 33 then .p2tr else .witnessUnknown
      else .bareMultisig

/-- An opcode of `OP_1`..`OP_16` is none of the other first bytes. -/
theorem leadingType_opNumber {k : Nat} (hk : 1 ≤ k) (hk16 : k ≤ 16) (rest : List UInt8) :
    leadingType (opNumber k :: rest) =
      if (rest.headD 0).toNat + 1 = rest.length then
        if opNumber k = 0x51 ∧ rest.length = 33 then .p2tr else .witnessUnknown
      else .bareMultisig := by
  have hne (b : UInt8) (hb : b.toNat < 0x51 ∨ 0x60 < b.toNat) : opNumber k ≠ b := by
    rintro rfl
    rw [opNumber_toNat hk16] at hb
    omega
  rw [leadingType, if_neg (hne _ (by decide)), if_neg (hne _ (by decide)),
    if_neg (hne _ (by decide)), if_neg (not_or.mpr ⟨hne _ (by decide), hne _ (by decide)⟩),
    if_neg (hne _ (by decide))]

theorem leadingType_witnessScript {version : Nat} {program : List UInt8}
    (h : IsWitness version program) :
    leadingType (witnessScript version program) = witnessType version program.length := by
  by_cases hzero : version = 0
  · subst hzero
    simp [leadingType, witnessScript, versionOp, witnessType]
  · have hone := versionOp_eq_one_iff h.version_le
    rw [versionOp, if_neg hzero] at hone
    rw [witnessScript, versionOp, if_neg hzero,
      leadingType_opNumber (Nat.pos_of_ne_zero hzero) h.version_le, List.headD_cons,
      h.length_byte, List.length_cons, if_pos rfl, witnessType]
    simp [hzero, hone]

/-- Whatever the number of its keys, a multisig script is no witness script: the first key
stops short of the end. -/
theorem leadingType_multisigForm {spk : List UInt8} {m n : Nat} {keys : List (List UInt8)}
    (h : MultisigForm spk m keys n) : leadingType spk = .bareMultisig := by
  have hmn := h.le
  have hn := h.le_sixteen
  rw [h.spk_eq, multisigScript, leadingType_opNumber h.one_le (hmn.trans hn), if_neg]
  cases keys with
  | nil =>
      have hop := opNumber_toNat hn
      simp [keyPushes, hop]
      omega
  | cons key tail =>
      have hkey := (List.forall_mem_cons.mp h.isKey).1
      simp [keyPushes, hkey.length_byte]

theorem leadingType_eq {t : ScriptType} {spk : List UInt8} (h : HasTemplate t spk) :
    leadingType spk = t := by
  cases t with
  | unknown => exact h.elim
  | p2pk =>
      obtain ⟨first, rest, hkey, -, -, rfl⟩ := h
      rcases hkey with hlen | hlen <;> simp [leadingType, hlen]
  | p2pkh =>
      obtain ⟨hash, -, rfl⟩ := h
      rfl
  | p2sh =>
      obtain ⟨hash, -, rfl⟩ := h
      rfl
  | p2wpkh =>
      obtain ⟨program, hlen, rfl⟩ := h
      rw [leadingType_witnessScript ⟨by omega, by omega, by omega⟩, hlen]
      rfl
  | p2wsh =>
      obtain ⟨program, hlen, rfl⟩ := h
      rw [leadingType_witnessScript ⟨by omega, by omega, by omega⟩, hlen]
      rfl
  | p2tr =>
      obtain ⟨program, hlen, rfl⟩ := h
      rw [leadingType_witnessScript ⟨by omega, by omega, by omega⟩, hlen]
      rfl
  | opReturn =>
      obtain ⟨data, rfl⟩ := h
      rfl
  | bareMultisig =>
      obtain ⟨m, keys, n, hform, -⟩ := h
      exact leadingType_multisigForm hform
  | witnessUnknown =>
      obtain ⟨version, program, hw, rfl, h20, h32, htr⟩ := h
      rw [leadingType_witnessScript hw, witnessType, if_neg h20, if_neg h32, if_neg htr]

/-- No script has two of the shapes. -/
theorem HasTemplate.unique {s t : ScriptType} {spk : List UInt8} (hs : HasTemplate s spk)
    (ht : HasTemplate t spk) : s = t :=
  (leadingType_eq hs).symm.trans (leadingType_eq ht)

/-! ## The order of the tests -/

/-- The source's test for each type. -/
def matchesTemplate : ScriptType → List UInt8 → Bool
  | .p2pkh, spk => isP2pkh spk
  | .p2sh, spk => isP2sh spk
  | .p2wpkh, spk => (classifyWitness spk).map Prod.fst == some .p2wpkh
  | .p2wsh, spk => (classifyWitness spk).map Prod.fst == some .p2wsh
  | .p2tr, spk => (classifyWitness spk).map Prod.fst == some .p2tr
  | .witnessUnknown, spk => (classifyWitness spk).map Prod.fst == some .witnessUnknown
  | .opReturn, spk => isOpReturn spk
  | .p2pk, spk => (p2pkKey spk).isSome
  | .bareMultisig, spk => isBareMultisig spk
  | .unknown, _ => false

/-- The tests in the order of the source. -/
def templateOrder : List ScriptType :=
  [.p2pkh, .p2sh, .p2wpkh, .p2wsh, .p2tr, .witnessUnknown, .opReturn, .p2pk, .bareMultisig]

theorem classifyWitness_type_iff (t : ScriptType) (spk : List UInt8) :
    (classifyWitness spk).map Prod.fst = some t ↔
      ∃ version program, IsWitness version program ∧ spk = witnessScript version program ∧
        witnessType version program.length = t := by
  rw [Option.map_eq_some_iff]
  constructor
  · rintro ⟨result, hresult, rfl⟩
    obtain ⟨version, program, hw, rfl, rfl⟩ := (classifyWitness_eq_some_iff spk result).mp hresult
    exact ⟨version, program, hw, rfl, rfl⟩
  · rintro ⟨version, program, hw, rfl, rfl⟩
    exact ⟨_, classifyWitness_witnessScript hw, rfl⟩

theorem hasTemplate_witnessType {version : Nat} {program : List UInt8}
    (hw : IsWitness version program) :
    HasTemplate (witnessType version program.length) (witnessScript version program) := by
  unfold witnessType
  by_cases h20 : version = 0 ∧ program.length = 20
  · rw [if_pos h20]
    exact ⟨program, h20.2, by rw [h20.1]⟩
  · rw [if_neg h20]
    by_cases h32 : version = 0 ∧ program.length = 32
    · rw [if_pos h32]
      exact ⟨program, h32.2, by rw [h32.1]⟩
    · rw [if_neg h32]
      by_cases htr : version = 1 ∧ program.length = 32
      · rw [if_pos htr]
        exact ⟨program, htr.2, by rw [htr.1]⟩
      · rw [if_neg htr]
        exact ⟨version, program, hw, rfl, h20, h32, htr⟩

/-- The four types of the segwit branch. -/
def IsWitnessType (t : ScriptType) : Prop :=
  t = .p2wpkh ∨ t = .p2wsh ∨ t = .p2tr ∨ t = .witnessUnknown

theorem HasTemplate.exists_witnessScript {t : ScriptType} {spk : List UInt8}
    (h : HasTemplate t spk) (ht : IsWitnessType t) :
    ∃ version program, IsWitness version program ∧ spk = witnessScript version program := by
  rcases ht with rfl | rfl | rfl | rfl
  · obtain ⟨program, hlen, rfl⟩ := h
    exact ⟨0, program, ⟨by omega, by omega, by omega⟩, rfl⟩
  · obtain ⟨program, hlen, rfl⟩ := h
    exact ⟨0, program, ⟨by omega, by omega, by omega⟩, rfl⟩
  · obtain ⟨program, hlen, rfl⟩ := h
    exact ⟨1, program, ⟨by omega, by omega, by omega⟩, rfl⟩
  · obtain ⟨version, program, hw, rfl, -⟩ := h
    exact ⟨version, program, hw, rfl⟩

theorem classifyWitness_type_eq_iff {t : ScriptType} (ht : IsWitnessType t) (spk : List UInt8) :
    (classifyWitness spk).map Prod.fst = some t ↔ HasTemplate t spk := by
  rw [classifyWitness_type_iff]
  constructor
  · rintro ⟨version, program, hw, rfl, rfl⟩
    exact hasTemplate_witnessType hw
  · intro h
    obtain ⟨version, program, hw, rfl⟩ := h.exists_witnessScript ht
    exact ⟨version, program, hw, rfl, (leadingType_witnessScript hw).symm.trans (leadingType_eq h)⟩

theorem p2pkKey_isSome_iff (spk : List UInt8) :
    (p2pkKey spk).isSome = true ↔ HasTemplate .p2pk spk := by
  rw [Option.isSome_iff_exists]
  constructor
  · rintro ⟨key, h⟩
    obtain ⟨first, rest, rfl, hkey, hlo, hhi, rfl⟩ := (p2pkKey_eq_some_iff spk key).mp h
    exact ⟨first, rest, hkey, hlo, hhi, rfl⟩
  · rintro ⟨first, rest, hkey, hlo, hhi, rfl⟩
    exact ⟨_, (p2pkKey_eq_some_iff _ _).mpr ⟨first, rest, rfl, hkey, hlo, hhi, rfl⟩⟩

/-- Each test but that for multisig decides its shape. -/
theorem matchesTemplate_iff {t : ScriptType} (ht : t ≠ .bareMultisig) (spk : List UInt8) :
    matchesTemplate t spk = true ↔ HasTemplate t spk := by
  cases t with
  | unknown => simp [matchesTemplate, HasTemplate]
  | p2pk => exact p2pkKey_isSome_iff spk
  | p2pkh => exact isP2pkh_iff spk
  | p2sh => exact isP2sh_iff spk
  | p2wpkh => exact beq_iff_eq.trans (classifyWitness_type_eq_iff (by simp [IsWitnessType]) spk)
  | p2wsh => exact beq_iff_eq.trans (classifyWitness_type_eq_iff (by simp [IsWitnessType]) spk)
  | p2tr => exact beq_iff_eq.trans (classifyWitness_type_eq_iff (by simp [IsWitnessType]) spk)
  | opReturn => exact isOpReturn_iff spk
  | bareMultisig => exact absurd rfl ht
  | witnessUnknown =>
      exact beq_iff_eq.trans (classifyWitness_type_eq_iff (by simp [IsWitnessType]) spk)

/-- At most one test passes. -/
theorem leadingType_of_matchesTemplate {t : ScriptType} {spk : List UInt8}
    (h : matchesTemplate t spk = true) : leadingType spk = t := by
  by_cases ht : t = .bareMultisig
  · subst ht
    obtain ⟨m, keys, n, hform, -⟩ := (isBareMultisig_iff spk).mp h
    exact leadingType_multisigForm hform
  · exact leadingType_eq ((matchesTemplate_iff ht spk).mp h)

theorem isWitnessType_witnessType (version length : Nat) :
    IsWitnessType (witnessType version length) := by
  unfold witnessType IsWitnessType
  split_ifs <;> simp

theorem matchesTemplate_of_classifyWitness {spk : List UInt8} {result : ScriptType × AddressHash}
    (h : classifyWitness spk = some result) : matchesTemplate result.1 spk = true := by
  obtain ⟨version, program, hw, rfl, rfl⟩ := (classifyWitness_eq_some_iff _ _).mp h
  refine (matchesTemplate_iff ?_ _).mpr (hasTemplate_witnessType hw)
  rcases isWitnessType_witnessType version program.length with h | h | h | h <;> simp [h]

/-- The type `classify_script` returns is that of a test that passes, and it is `Unknown` only
when none does. -/
theorem classifyScript_matches (D : Digests) (spk : List UInt8) :
    matchesTemplate (classifyScript D spk).1 spk = true ∨
      ((classifyScript D spk).1 = .unknown ∧ ∀ t, matchesTemplate t spk = false) := by
  unfold classifyScript
  by_cases hpkh : isP2pkh spk = true
  · rw [if_pos hpkh]
    exact Or.inl hpkh
  rw [if_neg hpkh]
  by_cases hsh : isP2sh spk = true
  · rw [if_pos hsh]
    exact Or.inl hsh
  rw [if_neg hsh]
  cases hwit : classifyWitness spk with
  | some result => exact Or.inl (matchesTemplate_of_classifyWitness hwit)
  | none =>
      by_cases hret : isOpReturn spk = true
      · simp only [if_pos hret]
        exact Or.inl hret
      simp only [if_neg hret]
      cases hkey : p2pkKey spk with
      | some pk =>
          left
          simp [matchesTemplate, hkey]
      | none =>
          by_cases hmulti : isBareMultisig spk = true
          · simp only [if_pos hmulti]
            exact Or.inl hmulti
          simp only [if_neg hmulti]
          right
          refine ⟨trivial, fun t => ?_⟩
          cases t <;> simp [matchesTemplate, hpkh, hsh, hwit, hret, hkey, hmulti]

theorem classifyScript_type_iff (D : Digests) (spk : List UInt8) {t : ScriptType}
    (ht : t ≠ .unknown) : (classifyScript D spk).1 = t ↔ matchesTemplate t spk = true := by
  constructor
  · rintro rfl
    exact (classifyScript_matches D spk).resolve_right fun h => ht h.1
  · intro h
    rcases classifyScript_matches D spk with hmatch | ⟨-, hnone⟩
    · exact (leadingType_of_matchesTemplate hmatch).symm.trans (leadingType_of_matchesTemplate h)
    · rw [hnone t] at h
      contradiction

/-- In whatever order the tests are tried, the first that passes gives the same type. -/
theorem find_matchesTemplate (D : Digests) (spk : List UInt8) {order : List ScriptType}
    (h : order.Perm templateOrder) :
    (order.find? (matchesTemplate · spk)).getD .unknown = (classifyScript D spk).1 := by
  cases hfind : order.find? (matchesTemplate · spk) with
  | some t =>
      have hmatch := List.find?_some hfind
      have ht : t ≠ .unknown := by
        rintro rfl
        simp [matchesTemplate] at hmatch
      exact ((classifyScript_type_iff D spk ht).mpr hmatch).symm
  | none =>
      rcases classifyScript_matches D spk with hmatch | ⟨hunknown, -⟩
      · have hmem : (classifyScript D spk).1 ∈ order := by
          rw [h.mem_iff]
          generalize (classifyScript D spk).1 = t at hmatch
          cases t <;> simp [templateOrder, matchesTemplate] at hmatch ⊢
        have hno := List.find?_eq_none.mp hfind _ hmem
        contradiction
      · rw [hunknown]
        rfl

/-- Each of the eight template types is returned on exactly its byte shape, the shapes and the
multisig grammar exclude each other, no order of the tests gives another type, and no access
is out of range. -/
theorem classifyScript_templates (D : Digests) (spk : List UInt8) :
    (∀ t, t ≠ .unknown → t ≠ .bareMultisig →
      ((classifyScript D spk).1 = t ↔ HasTemplate t spk)) ∧
    (∀ s t, HasTemplate s spk → HasTemplate t spk → s = t) ∧
    (∀ order : List ScriptType, order.Perm templateOrder →
      (order.find? (matchesTemplate · spk)).getD .unknown = (classifyScript D spk).1) ∧
    classifyScriptChecked D spk = some (classifyScript D spk) := by
  refine ⟨fun t ht hmulti => ?_, fun s t hs ht => hs.unique ht,
    fun order h => find_matchesTemplate D spk h, classifyScriptChecked_eq D spk⟩
  rw [classifyScript_type_iff D spk ht, matchesTemplate_iff hmulti]

end Bidx
