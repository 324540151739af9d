import Bidx.Lib.KeyValue

/-!
# A ledger of unspent outputs

The abstract ledger: a partial map from outpoints to outputs, changed by
transactions that first remove the outpoints they spend and then add the outputs
they create.  A block is a list of transactions applied one by one.

For a block that is valid in order, the result has a closed form in which the
order no longer shows (`applyAll_eq`): an outpoint some transaction spends is
gone, any other holds what the block created for it, or else what it held
before.  The value a transaction finds at an outpoint it spends is the same
closed form (`applyAll_spent`).
-/

namespace Ledger

open KeyValue

variable {α β : Type*} [DecidableEq α]

/-- What a transaction does: the outpoints it spends, the outputs it creates. -/
structure Tx (α β : Type*) where
  spent : List α
  created : List (α × β)

/-- The outpoints a transaction creates. -/
def Tx.outpoints (tx : Tx α β) : List α := tx.created.map Prod.fst

/-- Remove the spent outpoints, then add the created outputs. -/
def apply (S : α → Option β) (tx : Tx α β) : α → Option β :=
  write (write S (tx.spent.map .delete)) (tx.created.map fun e => .put e.1 e.2)

/-- Apply transactions one by one. -/
def applyAll (S : α → Option β) (txs : List (Tx α β)) : α → Option β := txs.foldl apply S

/-- Transactions that are valid in order over `S`: each spends outpoints of `S` or
of earlier transactions, nothing is spent twice, and what is created is new. -/
structure Valid (S : α → Option β) (txs : List (Tx α β)) : Prop where
  known : ∀ (i : Nat) (tx : Tx α β), txs[i]? = some tx → ∀ k ∈ tx.spent,
    S k ≠ none ∨ k ∈ (txs.take i).flatMap Tx.outpoints
  spent_nodup : (txs.flatMap Tx.spent).Nodup
  created_nodup : (txs.flatMap Tx.outpoints).Nodup
  fresh : ∀ k ∈ txs.flatMap Tx.outpoints, S k = none

/-- The outputs a block creates, as a map. -/
def created (txs : List (Tx α β)) : AList fun _ : α => β := insertAll ∅ (txs.flatMap Tx.created)

variable {S : α → Option β} {txs txs' before after : List (Tx α β)} {tx : Tx α β} {k : α}

theorem applyAll_snoc (S : α → Option β) (txs : List (Tx α β)) (tx : Tx α β) :
    applyAll S (txs ++ [tx]) = apply (applyAll S txs) tx := by
  simp [applyAll]

theorem apply_eq (S : α → Option β) (tx : Tx α β) (k : α) :
    apply S tx k =
      ((insertAll ∅ tx.created).lookup k).or (if k ∈ tx.spent then none else S k) := by
  rw [apply, write_puts, write_deletes]

omit [DecidableEq α] in
theorem map_fst_created (txs : List (Tx α β)) :
    (txs.flatMap Tx.created).map Prod.fst = txs.flatMap Tx.outpoints := by
  simp only [List.map_flatMap]
  rfl

theorem lookup_created_of_notMem (h : k ∉ txs.flatMap Tx.outpoints) :
    (created txs).lookup k = none := by
  rw [← map_fst_created] at h
  rw [created, lookup_insertAll_of_notMem h, AList.lookup_empty]

theorem lookup_created_snoc (txs : List (Tx α β)) (tx : Tx α β) (k : α) :
    (created (txs ++ [tx])).lookup k =
      ((insertAll ∅ tx.created).lookup k).or ((created txs).lookup k) := by
  simp only [created, List.flatMap_append, List.flatMap_singleton, insertAll_append]
  rw [lookup_insertAll]

omit [DecidableEq α] in
theorem Valid.known_of_split (h : Valid S (before ++ tx :: after)) (hk : k ∈ tx.spent) :
    S k ≠ none ∨ k ∈ before.flatMap Tx.outpoints := by
  simpa using h.known before.length tx (by simp) k hk

omit [DecidableEq α] in
theorem Valid.of_append (h : Valid S (txs ++ txs')) : Valid S txs where
  known i tx hi := by
    have hlt : i < txs.length := (List.getElem?_eq_some_iff.mp hi).1
    have hknown := h.known i tx (by rw [List.getElem?_append_left hlt, hi])
    rw [List.take_append_of_le_length (Nat.le_of_lt hlt)] at hknown
    exact hknown
  spent_nodup := by
    have := h.spent_nodup
    rw [List.flatMap_append] at this
    exact this.of_append_left
  created_nodup := by
    have := h.created_nodup
    rw [List.flatMap_append] at this
    exact this.of_append_left
  fresh k hk := by
    apply h.fresh k
    rw [List.flatMap_append]
    exact List.mem_append_left _ hk

omit [DecidableEq α] in
/-- An outpoint a transaction creates is spent neither by it nor before it. -/
theorem Valid.created_notMem_spent (h : Valid S (txs ++ [tx])) (hk : k ∈ tx.outpoints) :
    k ∉ txs.flatMap Tx.spent ∧ k ∉ tx.spent := by
  have hnone : S k = none := by
    apply h.fresh k
    simp [hk]
  have hdisj : k ∉ txs.flatMap Tx.outpoints := by
    have hnodup := h.created_nodup
    rw [List.flatMap_append, List.flatMap_singleton, List.nodup_append] at hnodup
    intro hmem
    exact hnodup.2.2 k hmem k hk rfl
  constructor
  · intro hspent
    obtain ⟨t, ht, hkt⟩ := List.mem_flatMap.mp hspent
    obtain ⟨pre, post, rfl⟩ := List.append_of_mem ht
    rw [List.append_assoc, List.cons_append] at h
    rcases h.known_of_split hkt with hS | hpre
    · exact hS hnone
    · apply hdisj
      rw [List.flatMap_append]
      exact List.mem_append_left _ hpre
  · intro hspent
    rcases h.known_of_split hspent with hS | hpre
    · exact hS hnone
    · exact hdisj hpre

/-- The closed form of a valid block. -/
theorem applyAll_eq (h : Valid S txs) (k : α) :
    applyAll S txs k =
      if k ∈ txs.flatMap Tx.spent then none else ((created txs).lookup k).or (S k) := by
  induction txs using List.reverseRecOn with
  | nil => simp [applyAll, created]
  | append_singleton txs tx ih =>
      rw [applyAll_snoc, apply_eq, ih h.of_append, lookup_created_snoc, List.flatMap_append,
        List.flatMap_singleton]
      by_cases hk : k ∈ tx.outpoints
      · obtain ⟨hbefore, hown⟩ := h.created_notMem_spent hk
        obtain ⟨v, hv, -⟩ := lookup_insertAll_of_mem (m := ∅) hk
        simp [hv, hbefore, hown]
      · have hnone : (insertAll ∅ tx.created).lookup k = none := by
          rw [lookup_insertAll_of_notMem hk, AList.lookup_empty]
        rw [hnone, Option.none_or, Option.none_or]
        by_cases hown : k ∈ tx.spent
        · simp [hown]
        · simp [hown]

/-- What a transaction of a valid block finds at an outpoint it spends. -/
theorem applyAll_spent (h : Valid S (before ++ tx :: after)) (hk : k ∈ tx.spent) :
    ∃ v, applyAll S before k = some v ∧
      ((created (before ++ tx :: after)).lookup k).or (S k) = some v := by
  have hnot : k ∉ before.flatMap Tx.spent := by
    have hnodup := h.spent_nodup
    rw [List.flatMap_append, List.flatMap_cons, List.nodup_append] at hnodup
    intro hmem
    exact hnodup.2.2 k hmem k (List.mem_append_left _ hk) rfl
  rw [applyAll_eq h.of_append, if_neg hnot]
  cases hS : S k with
  | some v =>
      have hfresh : k ∉ (before ++ tx :: after).flatMap Tx.outpoints := by
        intro hmem
        rw [h.fresh k hmem] at hS
        contradiction
      have hfreshBefore : k ∉ before.flatMap Tx.outpoints := by
        intro hmem
        apply hfresh
        rw [List.flatMap_append]
        exact List.mem_append_left _ hmem
      refine ⟨v, ?_, ?_⟩
      · rw [lookup_created_of_notMem hfreshBefore, Option.none_or]
      · rw [lookup_created_of_notMem hfresh, Option.none_or]
  | none =>
      have hmem : k ∈ before.flatMap Tx.outpoints :=
        (h.known_of_split hk).resolve_left (fun hne => hne hS)
      rw [← map_fst_created] at hmem
      obtain ⟨v, hv, hentry⟩ := lookup_insertAll_of_mem (m := ∅) hmem
      have hall : (created (before ++ tx :: after)).lookup k = some v := by
        apply lookup_insertAll_of_nodup
        · rw [map_fst_created]
          exact h.created_nodup
        · rw [List.flatMap_append]
          exact List.mem_append_left _ hentry
      refine ⟨v, ?_, ?_⟩
      · rw [created, hv, Option.some_or]
      · rw [hall, Option.some_or]

end Ledger
