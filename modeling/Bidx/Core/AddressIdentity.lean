import Bidx.Core.ScriptTemplates

/-!
# Which scripts share a row key

`outputs_by_address` identifies a script by the pair of its type and its address
hash.  For the hash and key templates the pair determines the script: the type
gives the frame and the hash, cut back to its length, what is in it.  The type
`WitnessUnknown` keeps neither the version nor the length of the program, and
only its first 32 bytes.
-/

namespace Bidx

/-- The types whose rows are those of an address. -/
def IsAddressType (t : ScriptType) : Prop :=
  t = .p2pkh ∨ t = .p2sh ∨ t = .p2wpkh ∨ t = .p2wsh ∨ t = .p2tr ∨ t = .witnessUnknown

/-- A witness program of none of the three known kinds. -/
def IsUnknownWitness (version : Nat) (program : List UInt8) : Prop :=
  IsWitness version program ∧ witnessType version program.length = .witnessUnknown

/-- Two witness scripts of unknown kind, of different versions or programs, whose programs
agree once cut and padded to 32 bytes. -/
def SharesProgram (x y : List UInt8) : Prop :=
  ∃ v p w q, IsUnknownWitness v p ∧ IsUnknownWitness w q ∧ x = witnessScript v p ∧
    y = witnessScript w q ∧ (v, p) ≠ (w, q) ∧ padSlice p = padSlice q

/-! ## The hash of each template -/

theorem take_takeD {α : Type*} (a : α) {l : List α} {n : Nat} (h : l.length ≤ n) :
    (l.takeD n a).take l.length = l := by
  induction l generalizing n with
  | nil => rfl
  | cons b l ih =>
      obtain ⟨n, rfl⟩ : ∃ k, n = k + 1 := Nat.exists_eq_succ_of_ne_zero (by rintro rfl; simp at h)
      rw [List.takeD_succ, List.length_cons, List.take_succ_cons, List.tail_cons,
        ih (Nat.le_of_succ_le_succ h)]
      rfl

theorem padSlice_inj {p q : List UInt8} (hlen : p.length = q.length) (hp : p.length ≤ 32)
    (h : padSlice p = padSlice q) : p = q := by
  have hlist : p.takeD 32 0 = q.takeD 32 0 := congrArg List.Vector.toList h
  calc
    p = (p.takeD 32 0).take p.length := (take_takeD 0 hp).symm
    _ = (q.takeD 32 0).take q.length := by rw [hlist, hlen]
    _ = q := take_takeD 0 (hlen ▸ hp)

theorem matchesTemplate_eq_false {s t : ScriptType} {spk : List UInt8} (hst : s ≠ t)
    (h : HasTemplate t spk) : ¬matchesTemplate s spk = true := by
  intro hs
  exact hst ((leadingType_of_matchesTemplate hs).symm.trans (leadingType_eq h))

theorem classifyScript_p2pkh (D : Digests) {hash : List UInt8} (h : hash.length = 20) :
    classifyScript D (0x76 :: 0xa9 :: 0x14 :: (hash ++ [0x88, 0xac])) =
      (.p2pkh, padSlice hash) := by
  rw [classifyScript, if_pos ((isP2pkh_iff _).mpr ⟨hash, h, rfl⟩)]
  simp [← h]

theorem classifyScript_p2sh (D : Digests) {hash : List UInt8} (h : hash.length = 20) :
    classifyScript D (0xa9 :: 0x14 :: (hash ++ [0x87])) = (.p2sh, padSlice hash) := by
  have hshape : HasTemplate .p2sh (0xa9 :: 0x14 :: (hash ++ [0x87])) := ⟨hash, h, rfl⟩
  have hpkh : ¬isP2pkh (0xa9 :: 0x14 :: (hash ++ [0x87])) = true :=
    matchesTemplate_eq_false (s := .p2pkh) (by simp) hshape
  rw [classifyScript, if_neg hpkh, if_pos ((isP2sh_iff _).mpr hshape)]
  simp [← h]

theorem classifyScript_witnessScript (D : Digests) {version : Nat} {program : List UInt8}
    (hw : IsWitness version program) :
    classifyScript D (witnessScript version program) =
      (witnessType version program.length, padSlice program) := by
  have hshape := hasTemplate_witnessType hw
  have htype := isWitnessType_witnessType version program.length
  have hpkh : ¬isP2pkh (witnessScript version program) = true :=
    matchesTemplate_eq_false (s := .p2pkh)
      (by rcases htype with h | h | h | h <;> simp [h]) hshape
  have hsh : ¬isP2sh (witnessScript version program) = true :=
    matchesTemplate_eq_false (s := .p2sh)
      (by rcases htype with h | h | h | h <;> simp [h]) hshape
  rw [classifyScript, if_neg hpkh, if_neg hsh, classifyWitness_witnessScript hw]

/-- An address script has the shape of its type. -/
theorem hasTemplate_of_isAddressType (D : Digests) {spk : List UInt8}
    (h : IsAddressType (classifyScript D spk).1) :
    HasTemplate (classifyScript D spk).1 spk := by
  have hmatch := (classifyScript_matches D spk).resolve_right fun hno => by
    rw [hno.1] at h
    simp [IsAddressType] at h
  refine (matchesTemplate_iff ?_ spk).mp hmatch
  intro hmulti
  rw [hmulti] at h
  simp [IsAddressType] at h

theorem hasTemplate_witnessUnknown_iff (spk : List UInt8) :
    HasTemplate .witnessUnknown spk ↔
      ∃ version program, IsUnknownWitness version program ∧
        spk = witnessScript version program := by
  constructor
  · intro h
    obtain ⟨version, program, hw, rfl⟩ := h.exists_witnessScript (by simp [IsWitnessType])
    exact ⟨version, program,
      ⟨hw, (leadingType_witnessScript hw).symm.trans (leadingType_eq h)⟩, rfl⟩
  · rintro ⟨version, program, ⟨hw, htype⟩, rfl⟩
    exact htype ▸ hasTemplate_witnessType hw

/-- Two programs of one known version and length, told apart by their hashes. -/
theorem witnessScript_eq_of_hash (D : Digests) {version : Nat} {p q : List UInt8}
    (hversion : version ≤ 16) (hp : p.length = 20 ∨ p.length = 32) (hlen : p.length = q.length)
    (h : classifyScript D (witnessScript version p) = classifyScript D (witnessScript version q)) :
    witnessScript version p = witnessScript version q := by
  rw [classifyScript_witnessScript D ⟨hversion, by omega, by omega⟩,
    classifyScript_witnessScript D ⟨hversion, by omega, by omega⟩] at h
  rw [padSlice_inj hlen (by omega) (Prod.mk.inj h).2]

/-- Away from `WitnessUnknown` the row key determines the script. -/
theorem eq_of_classifyScript_eq (D : Digests) {t : ScriptType} {x y : List UInt8}
    (ht : IsAddressType t) (hknown : t ≠ .witnessUnknown) (hx : HasTemplate t x)
    (hy : HasTemplate t y) (h : classifyScript D x = classifyScript D y) : x = y := by
  rcases ht with rfl | rfl | rfl | rfl | rfl | rfl
  · obtain ⟨hash, hlen, rfl⟩ := hx
    obtain ⟨hash', hlen', rfl⟩ := hy
    rw [classifyScript_p2pkh D hlen, classifyScript_p2pkh D hlen'] at h
    rw [padSlice_inj (hlen.trans hlen'.symm) (by omega) (Prod.mk.inj h).2]
  · obtain ⟨hash, hlen, rfl⟩ := hx
    obtain ⟨hash', hlen', rfl⟩ := hy
    rw [classifyScript_p2sh D hlen, classifyScript_p2sh D hlen'] at h
    rw [padSlice_inj (hlen.trans hlen'.symm) (by omega) (Prod.mk.inj h).2]
  · obtain ⟨p, hlen, rfl⟩ := hx
    obtain ⟨q, hlen', rfl⟩ := hy
    exact witnessScript_eq_of_hash D (by omega) (Or.inl hlen) (hlen.trans hlen'.symm) h
  · obtain ⟨p, hlen, rfl⟩ := hx
    obtain ⟨q, hlen', rfl⟩ := hy
    exact witnessScript_eq_of_hash D (by omega) (Or.inr hlen) (hlen.trans hlen'.symm) h
  · obtain ⟨p, hlen, rfl⟩ := hx
    obtain ⟨q, hlen', rfl⟩ := hy
    exact witnessScript_eq_of_hash D (by omega) (Or.inr hlen) (hlen.trans hlen'.symm) h
  · exact absurd rfl hknown

theorem classifyScript_unknownWitness (D : Digests) {version : Nat} {program : List UInt8}
    (h : IsUnknownWitness version program) :
    classifyScript D (witnessScript version program) = (.witnessUnknown, padSlice program) := by
  rw [classifyScript_witnessScript D h.1, h.2]

/-- The row key identifies an address script except among the witness programs of unknown kind
that share their first 32 bytes, zero padded. -/
theorem address_identity_iff (D : Digests) (x y : List UInt8) :
    (IsAddressType (classifyScript D x).1 → IsAddressType (classifyScript D y).1 →
      classifyScript D x = classifyScript D y → x = y) ↔ ¬SharesProgram x y := by
  constructor
  · rintro h ⟨v, p, w, q, hv, hw, rfl, rfl, hne, hpad⟩
    have hx := classifyScript_unknownWitness D hv
    have hy := classifyScript_unknownWitness D hw
    have heq := h (by rw [hx]; simp [IsAddressType]) (by rw [hy]; simp [IsAddressType])
      (by rw [hx, hy, hpad])
    obtain ⟨rfl, rfl⟩ := witnessScript_inj hv.1.version_le hw.1.version_le heq
    exact hne rfl
  · intro hno hx hy h
    have hsx := hasTemplate_of_isAddressType D hx
    have hsy := hasTemplate_of_isAddressType D hy
    rw [← h] at hsy
    by_cases hunknown : (classifyScript D x).1 = .witnessUnknown
    · rw [hunknown] at hsx hsy
      obtain ⟨v, p, hv, rfl⟩ := (hasTemplate_witnessUnknown_iff x).mp hsx
      obtain ⟨w, q, hw, rfl⟩ := (hasTemplate_witnessUnknown_iff y).mp hsy
      rw [classifyScript_unknownWitness D hv, classifyScript_unknownWitness D hw] at h
      by_contra hxy
      refine hno ⟨v, p, w, q, hv, hw, rfl, rfl, ?_, (Prod.mk.inj h).2⟩
      rintro heq
      obtain ⟨rfl, rfl⟩ := Prod.mk.inj heq
      exact hxy rfl
    · exact eq_of_classifyScript_eq D hx hunknown hsx hsy h

/-- `OP_2 <01 01>` and `OP_3 <01 01>`. -/
theorem address_identity_fails :
    ¬∀ x y : List UInt8, IsAddressType (classifyScript (Digests.ofTable []) x).1 →
      IsAddressType (classifyScript (Digests.ofTable []) y).1 →
      classifyScript (Digests.ofTable []) x = classifyScript (Digests.ofTable []) y → x = y := by
  intro h
  have hkey (version : Nat) (hle : 2 ≤ version ∧ version ≤ 16) :
      classifyScript (Digests.ofTable []) (witnessScript version [1, 1]) =
        (.witnessUnknown, padSlice [1, 1]) :=
    classifyScript_unknownWitness _
      ⟨⟨hle.2, by simp, by simp⟩, by
        rw [witnessType, if_neg (by omega), if_neg (by omega), if_neg (by omega)]⟩
  have heq := h (witnessScript 2 [1, 1]) (witnessScript 3 [1, 1])
    (by rw [hkey 2 (by omega)]; simp [IsAddressType])
    (by rw [hkey 3 (by omega)]; simp [IsAddressType])
    (by rw [hkey 2 (by omega), hkey 3 (by omega)])
  exact absurd (witnessScript_inj (by omega) (by omega) heq).1 (by omega)

end Bidx
