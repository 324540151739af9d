import Bidx.Live.Chain

/-!
# Where an entry of the table comes from

Every entry of a replayed table holds the height of the block that created it.  Of two
tables on the way through one chain the later one therefore has, at every outpoint, the
entry of the earlier one, nothing, or an entry of a height in between.
-/

namespace Bidx

open KeyValue

/-- What a block that decides an outpoint leaves there: nothing, or an output of its
own height. -/
theorem blockTable_of_writes_cases {height : UInt32} {block : FullBlock} {k : Key}
    (hwrites : Writes block k) (S : Table) :
    (k ∈ spentKeys block.inputs ∧ blockTable height block S k = none) ∨
      (k ∈ createdKeys block.outputs ∧
        ∃ v, blockTable height block S k = some (UtxoValue.encode v) ∧ v.height = height) := by
  rcases hwrites with ⟨hspent, hnot⟩ | ⟨hnot, hcreated⟩
  · exact .inl ⟨hspent, by rw [blockTable, if_pos hspent, if_neg hnot]⟩
  · have hkey : k ∈ (block.outputs.map fun out => (out.key, out.value height)).map Prod.fst := by
      rw [List.map_map]
      exact hcreated
    obtain ⟨v, hv, hmem⟩ := lookup_insertAll_of_mem (m := ∅) hkey
    refine .inr ⟨hcreated, v, ?_, ?_⟩
    · rw [blockTable, if_neg hnot, seedPending, hv]
      rfl
    · obtain ⟨out, -, heq⟩ := List.mem_map.mp hmem
      obtain ⟨-, rfl⟩ := Prod.mk.inj heq
      rfl

section Valid

variable {D : Digests} {chain : List RawBlock}

/-- Two tables on the way, at one outpoint. -/
theorem ValidChain.entry_cases (hvalid : ValidChain D chain) {lo hi : Nat} (hle : lo ≤ hi)
    (hlen : hi ≤ chain.length) (k : Key) :
    replay D (chain.take hi) k = replay D (chain.take lo) k ∨
      replay D (chain.take hi) k = none ∨
      ∃ v, replay D (chain.take hi) k = some (UtxoValue.encode v) ∧
        lo ≤ v.height.toNat ∧ v.height.toNat < hi := by
  have hbound := hvalid.length_lt
  -- Upwards from `lo`: a block either decides the outpoint anew or passes it on.
  induction hi, hle using Nat.le_induction with
  | base => exact .inl rfl
  | succ hi hle ih =>
      have hraw : chain[hi]? = some _ := List.getElem?_eq_getElem (by omega)
      obtain ⟨block, hparse, -⟩ := hvalid.valid _ _ hraw
      rw [hvalid.replay_succ hraw hparse]
      by_cases hwrites : Writes block k
      · rcases blockTable_of_writes_cases hwrites (replay D (chain.take hi)) with
          ⟨-, hnone⟩ | ⟨-, v, hv, hheight⟩
        · exact .inr (.inl hnone)
        · refine .inr (.inr ⟨v, hv, ?_⟩)
          rw [hheight, toNat_ofNat_height (by omega)]
          omega
      · rw [blockTable_of_not_writes hwrites]
        rcases ih (by omega) with heq | hnone | ⟨v, hv, hlo, hhi⟩
        · exact .inl heq
        · exact .inr (.inl hnone)
        · exact .inr (.inr ⟨v, hv, hlo, by omega⟩)

/-- An entry was created below the height it stands at. -/
theorem ValidChain.entry_height_lt (hvalid : ValidChain D chain) {n : Nat}
    (hlen : n ≤ chain.length) {k : Key} {v : UtxoValue}
    (hv : replay D (chain.take n) k = some (UtxoValue.encode v)) : v.height.toNat < n := by
  rcases hvalid.entry_cases (Nat.zero_le n) hlen k with heq | hnone | ⟨w, hw, -, hlt⟩
  · rw [hv] at heq
    contradiction
  · rw [hv] at hnone
    contradiction
  · rw [hv, Option.some.injEq] at hw
    rw [UtxoValue.encode_inj hw]
    exact hlt

/-- A beginning of a chain leaves its table only if it is the whole chain: the last
block leaves an output of its own. -/
theorem ValidChain.replay_take_eq_iff (hvalid : ValidChain D chain) {n : Nat}
    (hlen : n ≤ chain.length) : replay D (chain.take n) = replay D chain ↔ n = chain.length := by
  constructor
  · intro heq
    -- The last block leaves an output whose height no shorter beginning reaches.
    by_contra hne
    have hlast : chain[chain.length - 1]? = some _ := List.getElem?_eq_getElem (by omega)
    obtain ⟨block, hparse, hover⟩ := hvalid.valid _ _ hlast
    have hend := hvalid.replay_succ hlast hparse
    rw [List.take_of_length_le (by omega : chain.length ≤ chain.length - 1 + 1)] at hend
    obtain ⟨k, v, hv, hheight⟩ := hover.leaves_output
      (UInt32.ofNat (chain.length - 1)) (parseAt_shape hparse)
    rw [← hend, ← heq] at hv
    have hlt := hvalid.entry_height_lt hlen hv
    have hbound := hvalid.length_lt
    rw [hheight, toNat_ofNat_height (by omega)] at hlt
    omega
  · rintro rfl
    rw [List.take_length]

end Valid

end Bidx
