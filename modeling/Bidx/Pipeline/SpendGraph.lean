import Bidx.Live.EntryHeights
import Bidx.Pipeline.BulkReplay

/-!
# Which outputs of a chain are unspent

Read off the blocks themselves: which block leaves an output at an outpoint, which one
takes it, and which output is unspent below a height.  A replayed table holds exactly the
unspent outputs, each with the height of the block that left it.

Blocks applied to another table than the one below them decide the outpoints they leave
or take, and keep what the other table holds elsewhere.
-/

namespace Bidx

open KeyValue

section Graph

variable (D : Digests) (chain : List RawBlock)

/-- The block at `height` creates the outpoint and does not spend it itself. -/
def Leaves (height : Nat) (k : Key) : Prop :=
  ∃ block, chainBlock D chain height = some block ∧ k ∈ createdKeys block.outputs ∧
    k ∉ spentKeys block.inputs

instance (height : Nat) (k : Key) : Decidable (Leaves D chain height k) :=
  decidable_of_iff ((chainBlock D chain height).any fun block =>
      decide (k ∈ createdKeys block.outputs ∧ k ∉ spentKeys block.inputs)) <| by
    simp [Leaves, Option.any_eq_true]

/-- The block at `height` spends the outpoint and does not create it itself. -/
def Takes (height : Nat) (k : Key) : Prop :=
  ∃ block, chainBlock D chain height = some block ∧ k ∈ spentKeys block.inputs ∧
    k ∉ createdKeys block.outputs

/-- The output that the block at `height` leaves is not taken below `bound`. -/
structure UnspentAt (bound height : Nat) (k : Key) : Prop where
  height_lt : height < bound
  leaves : Leaves D chain height k
  not_taken : ∀ later, height < later → later < bound → ¬Takes D chain later k

end Graph

section Valid

variable {D : Digests} {chain : List RawBlock} {block : FullBlock} {height bound : Nat} {k : Key}

theorem writes_iff_leaves_or_takes (hblock : chainBlock D chain height = some block) :
    Writes block k ↔ Leaves D chain height k ∨ Takes D chain height k := by
  constructor
  · rintro (⟨hspent, hnot⟩ | ⟨hnot, hcreated⟩)
    · exact .inr ⟨block, hblock, hspent, hnot⟩
    · exact .inl ⟨block, hblock, hcreated, hnot⟩
  · rintro (⟨block', hblock', hcreated, hnot⟩ | ⟨block', hblock', hspent, hnot⟩)
    · obtain rfl := Option.some.inj (hblock.symm.trans hblock')
      exact .inr ⟨hnot, hcreated⟩
    · obtain rfl := Option.some.inj (hblock.symm.trans hblock')
      exact .inl ⟨hspent, hnot⟩

theorem Leaves.height_lt (h : Leaves D chain height k) : height < chain.length := by
  obtain ⟨block, hblock, -⟩ := h
  exact chainBlock_lt hblock

/-- An outpoint is new when a block leaves an output there. -/
theorem Leaves.replay_eq_none (hvalid : ValidChain D chain) (h : Leaves D chain height k) :
    replay D (chain.take height) k = none := by
  obtain ⟨block, hblock, hcreated, -⟩ := h
  exact (hvalid.at_block hblock).1.fresh k hcreated

theorem Leaves.replay_succ (hvalid : ValidChain D chain) (h : Leaves D chain height k) :
    ∃ v, replay D (chain.take (height + 1)) k = some (UtxoValue.encode v) ∧
      v.height.toNat = height := by
  have hlt := h.height_lt
  have hbound := hvalid.length_lt
  obtain ⟨block, hblock, hcreated, hnot⟩ := h
  rw [(hvalid.at_block hblock).2]
  rcases blockTable_of_writes_cases (.inr ⟨hnot, hcreated⟩) (replay D (chain.take height)) with
    ⟨hspent, -⟩ | ⟨-, v, hv, hheight⟩
  · exact absurd hspent hnot
  · refine ⟨v, hv, ?_⟩
    rw [hheight, toNat_ofNat_height (by omega)]

theorem Takes.height_lt (h : Takes D chain height k) : height < chain.length := by
  obtain ⟨block, hblock, -⟩ := h
  exact chainBlock_lt hblock

/-- A block takes only what is there. -/
theorem Takes.replay_ne_none (hvalid : ValidChain D chain) (h : Takes D chain height k) :
    replay D (chain.take height) k ≠ none := by
  obtain ⟨block, hblock, hspent, hnot⟩ := h
  exact (hvalid.at_block hblock).1.spent_known hspent hnot

theorem Takes.replay_succ (hvalid : ValidChain D chain) (h : Takes D chain height k) :
    replay D (chain.take (height + 1)) k = none := by
  obtain ⟨block, hblock, hspent, hnot⟩ := h
  rw [(hvalid.at_block hblock).2, blockTable, if_pos hspent, if_neg hnot]

theorem ValidChain.replay_succ_of_untouched (hvalid : ValidChain D chain)
    (hlt : height < chain.length) (hleaves : ¬Leaves D chain height k)
    (htakes : ¬Takes D chain height k) :
    replay D (chain.take (height + 1)) k = replay D (chain.take height) k := by
  obtain ⟨block, hblock⟩ := hvalid.exists_chainBlock hlt
  rw [(hvalid.at_block hblock).2]
  refine blockTable_of_not_writes fun hwrites => ?_
  rcases (writes_iff_leaves_or_takes hblock).mp hwrites with h | h
  · exact hleaves h
  · exact htakes h

theorem UnspentAt.succ_iff (hleaves : ¬Leaves D chain bound k) (htakes : ¬Takes D chain bound k) :
    UnspentAt D chain (bound + 1) height k ↔ UnspentAt D chain bound height k := by
  constructor
  · rintro ⟨hlt, hleft, hkept⟩
    have hne : height ≠ bound := by
      rintro rfl
      exact hleaves hleft
    exact ⟨by omega, hleft, fun later hlater hbound => hkept later hlater (by omega)⟩
  · rintro ⟨hlt, hleft, hkept⟩
    refine ⟨by omega, hleft, fun later hlater hbound => ?_⟩
    by_cases heq : later = bound
    · rw [heq]
      exact htakes
    · exact hkept later hlater (by omega)

/-- The replayed table holds the unspent outputs, with their heights. -/
theorem ValidChain.unspentAt_iff (hvalid : ValidChain D chain) (hle : bound ≤ chain.length) :
    UnspentAt D chain bound height k ↔
      ∃ v, replay D (chain.take bound) k = some (UtxoValue.encode v) ∧ v.height.toNat = height := by
  induction bound with
  | zero =>
      refine iff_of_false (fun h => absurd h.height_lt (Nat.not_lt_zero _)) ?_
      rintro ⟨v, hv, -⟩
      contradiction
  | succ bound ih =>
      have hprevious := ih (by omega)
      by_cases hleaves : Leaves D chain bound k
      · obtain ⟨v, hv, hheight⟩ := hleaves.replay_succ hvalid
        rw [hv]
        constructor
        · intro h
          have hlast : height = bound := by
            by_contra hne
            -- An older output would still be in the table the new one comes into.
            have hlt := h.height_lt
            obtain ⟨w, hw, -⟩ := hprevious.mp ⟨by omega, h.leaves,
              fun later hlater hbound => h.not_taken later hlater (by omega)⟩
            rw [hleaves.replay_eq_none hvalid] at hw
            contradiction
          exact ⟨v, rfl, by rw [hheight, hlast]⟩
        · rintro ⟨w, hw, rfl⟩
          obtain rfl := UtxoValue.encode_inj (Option.some.inj hw)
          rw [hheight]
          exact ⟨by omega, hleaves, fun later hlater hbound => by omega⟩
      · by_cases htakes : Takes D chain bound k
        · rw [htakes.replay_succ hvalid]
          constructor
          · intro h
            have hne : height ≠ bound := by
              rintro rfl
              exact hleaves h.leaves
            have hlt := h.height_lt
            exact absurd htakes (h.not_taken bound (by omega) (by omega))
          · rintro ⟨v, hv, -⟩
            contradiction
        · rw [UnspentAt.succ_iff hleaves htakes, hprevious,
            hvalid.replay_succ_of_untouched (by omega) hleaves htakes]

/-- Every entry of a replayed table is an unspent output. -/
theorem ValidChain.exists_unspentAt (hvalid : ValidChain D chain) (hle : bound ≤ chain.length)
    (hne : replay D (chain.take bound) k ≠ none) :
    ∃ v, replay D (chain.take bound) k = some (UtxoValue.encode v) ∧
      UnspentAt D chain bound v.height.toNat k := by
  obtain ⟨raw, hraw⟩ := Option.ne_none_iff_exists'.mp hne
  obtain ⟨v, hv⟩ := hvalid.decodes bound k raw hraw
  rw [← UtxoValue.encode_of_decode hv] at hraw
  exact ⟨v, hraw, (hvalid.unspentAt_iff hle).mpr ⟨v, hraw, rfl⟩⟩

end Valid

/-! ## Blocks on another table -/

section Again

variable {D : Digests} {chain : List RawBlock} {block : FullBlock} {start count : Nat} {S : Table}
  {k : Key}

theorem ValidChain.decodes_replayRange (hvalid : ValidChain D chain) (hS : S.Decodes)
    (start count : Nat) : (replayRange D chain start S count).Decodes := by
  induction count with
  | zero => exact hS
  | succ count ih =>
      cases hblock : chainBlock D chain (start + count) with
      | none => rwa [replayRange_of_none _ hblock]
      | some block =>
          rw [replayRange_of_block _ hblock, tableAfter_eq _ (chainBlock_shape hblock)
            (hvalid.at_block hblock).1.spent_nodup ih]
          exact ih.blockTable _ _

theorem ValidChain.replayRange_blockTable (hvalid : ValidChain D chain) (hS : S.Decodes)
    (hblock : chainBlock D chain (start + count) = some block) :
    replayRange D chain start S (count + 1) =
      blockTable (UInt32.ofNat (start + count)) block (replayRange D chain start S count) := by
  rw [replayRange_of_block _ hblock, tableAfter_eq _ (chainBlock_shape hblock)
    (hvalid.at_block hblock).1.spent_nodup (hvalid.decodes_replayRange hS start count)]

/-- An outpoint that one of the blocks left or took stands as on the chain itself. -/
theorem ValidChain.replayRange_of_touched (hvalid : ValidChain D chain) (hS : S.Decodes)
    (hlen : start + count ≤ chain.length) {height : Nat} (hle : start ≤ height)
    (hlt : height < start + count)
    (htouched : Leaves D chain height k ∨ Takes D chain height k) :
    replayRange D chain start S count k = replay D (chain.take (start + count)) k := by
  induction count with
  | zero => omega
  | succ count ih =>
      obtain ⟨block, hblock⟩ :=
        hvalid.exists_chainBlock (show start + count < chain.length by omega)
      rw [hvalid.replayRange_blockTable hS hblock, ← Nat.add_assoc, (hvalid.at_block hblock).2,
        blockTable_agree_iff]
      by_cases hlast : height = start + count
      · left
        rw [writes_iff_leaves_or_takes hblock, ← hlast]
        exact htouched
      · right
        exact ih (by omega) (by omega)

/-- Elsewhere the other table shows through. -/
theorem ValidChain.replayRange_of_untouched (hvalid : ValidChain D chain) (hS : S.Decodes)
    (hlen : start + count ≤ chain.length)
    (hnone : ∀ height, start ≤ height → height < start + count →
      ¬Leaves D chain height k ∧ ¬Takes D chain height k) :
    replayRange D chain start S count k = S k := by
  induction count with
  | zero => rfl
  | succ count ih =>
      obtain ⟨block, hblock⟩ :=
        hvalid.exists_chainBlock (show start + count < chain.length by omega)
      have hnot : ¬Writes block k := by
        rw [writes_iff_leaves_or_takes hblock, not_or]
        exact hnone _ (by omega) (by omega)
      rw [hvalid.replayRange_blockTable hS hblock, blockTable_of_not_writes hnot]
      exact ih (by omega) fun height hle hlt => hnone height hle (by omega)

end Again

end Bidx
