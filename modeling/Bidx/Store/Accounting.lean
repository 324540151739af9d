import Bidx.Store.LedgerRefinement

/-!
# The books of `apply_block`

Whatever the block, the store and the mode, a call that returns accounts for every
non-coinbase input exactly once: it has a spend row or is counted missing, and it was
looked up in exactly one place in the end.  Fees are kept by saturating additions and
subtractions in two passes; they come down to one formula per transaction.

The rows may be those of any block, valid or not, as long as every row belongs to a
transaction of the block.  With other rows the call panics.
-/

namespace Bidx

open KeyValue

/-- The inputs that spend something. -/
def spendingInputs (inputs : List InputRow) : List InputRow :=
  inputs.filter fun inp => !inp.isCoinbase

/-- Every row belongs to a transaction of the block. -/
structure RowsInRange (txs : List TxRow) (inputs : List InputRow) (outputs : List OutputRow) :
    Prop where
  inputs : ∀ inp ∈ inputs, inp.txIndex.toNat < txs.length
  outputs : ∀ out ∈ outputs, out.txIndex.toNat < txs.length

/-- A spend row of an input: it names the input's transaction and its prevout. -/
structure RowOf (height : UInt32) (row : SpendRow) (inp : InputRow) : Prop where
  height : row.height = height
  spendingTxIndex : row.spendingTxIndex = inp.txIndex
  spendingInputIndex : row.spendingInputIndex = inp.inputIndex
  spendingTxid : row.spendingTxid = inp.txid
  spentTxid : row.spentTxid = inp.prevTxid
  spentVout : row.spentVout = inp.prevVout

theorem rowOf_spendRow (height : UInt32) (inp : InputRow) (v : UtxoValue) :
    RowOf height (spendRow height inp v) inp := ⟨rfl, rfl, rfl, rfl, rfl, rfl⟩

/-- What a spend row credits to its transaction. -/
def SpendRow.credit (row : SpendRow) : Nat × UInt64 :=
  (row.spendingTxIndex.toNat, row.spentValueSat)

/-- What an output row charges to its transaction. -/
def OutputRow.charge (out : OutputRow) : Nat × UInt64 := (out.txIndex.toNat, out.valueSat)

/-! ## The input loop -/

/-- The books after the inputs `seen`. -/
structure Accounted (height : UInt32) (txCount : Nat) (seen : List InputRow) (st : InputLoop) :
    Prop where
  resolved : st.spends.length + st.missing = seen.length
  lookups : st.pendingHits + st.cacheHits + st.dbLookups = seen.length
  rows : ∃ hits, hits.Sublist seen ∧ List.Forall₂ (RowOf height) st.spends hits
  fees : st.fees = booked saturatingAdd (List.replicate txCount 0) (st.spends.map SpendRow.credit)

section Loop

variable {db : Db} {undoEnabled : Bool} {faults : RocksFaults} {height : UInt32} {txCount : Nat}
  {seen : List InputRow} {inp : InputRow} {st st' : InputLoop}

theorem accounted_initial (recent : Option RecentUtxoCache) (height : UInt32) (txs : List TxRow)
    (outputs : List OutputRow) :
    Accounted height txs.length [] (initialLoop recent height txs outputs) :=
  ⟨rfl, rfl, ⟨[], List.Sublist.refl [], .nil⟩, rfl⟩

theorem Accounted.length_fees (h : Accounted height txCount seen st) :
    st.fees.length = txCount := by
  rw [h.fees, length_booked, List.length_replicate]

/-- What a round does to the books: one input more, with a row or missing. -/
inductive Booked (height : UInt32) (inp : InputRow) (st st' : InputLoop) : Prop
  | spent (v : UtxoValue) (spends : st'.spends = st.spends ++ [spendRow height inp v])
      (fees : st'.fees = st.fees.modify inp.txIndex.toNat (saturatingAdd · v.valueSat))
      (missing : st'.missing = st.missing)
      (lookups : st'.pendingHits + st'.cacheHits + st'.dbLookups =
        st.pendingHits + st.cacheHits + st.dbLookups + 1)
  | missing (spends : st'.spends = st.spends) (fees : st'.fees = st.fees)
      (missing : st'.missing = st.missing + 1)
      (lookups : st'.pendingHits + st'.cacheHits + st'.dbLookups =
        st.pendingHits + st.cacheHits + st.dbLookups + 1)

theorem Accounted.booked (h : Accounted height txCount seen st) (hstep : Booked height inp st st') :
    Accounted height txCount (seen ++ [inp]) st' := by
  obtain ⟨hits, hsub, hrows⟩ := h.rows
  have hresolved := h.resolved
  have hlookups := h.lookups
  cases hstep with
  | spent v hspends hfees hmissing hstep =>
      refine ⟨?_, ?_, ⟨hits ++ [inp], ?_, ?_⟩, ?_⟩
      · rw [hspends, hmissing, List.length_append, List.length_append, List.length_singleton,
          List.length_singleton]
        omega
      · rw [hstep, List.length_append, List.length_singleton]
        omega
      · exact hsub.append (List.Sublist.refl [inp])
      · rw [hspends]
        exact List.rel_append hrows (.cons (rowOf_spendRow height inp v) .nil)
      · rw [hfees, hspends, h.fees, List.map_append, Bidx.booked, Bidx.booked, List.foldl_append]
        rfl
  | missing hspends hfees hmissing hstep =>
      refine ⟨?_, ?_, ⟨hits, ?_, ?_⟩, ?_⟩
      · rw [hspends, hmissing, List.length_append, List.length_singleton]
        omega
      · rw [hstep, List.length_append, List.length_singleton]
        omega
      · exact hsub.trans (List.sublist_append_left seen [inp])
      · rw [hspends]
        exact hrows
      · rw [hfees, hspends]
        exact h.fees

/-- A round that goes on: the input is a coinbase, or it is booked. -/
theorem resolveInput_booked (h : resolveInput db undoEnabled faults height st inp = .ok st') :
    (inp.isCoinbase = true ∧ st' = st) ∨ (inp.isCoinbase = false ∧ Booked height inp st st') := by
  rcases resolveInput_eq_ok h with hcb | ⟨hcb, v, -, -, rfl⟩ | ⟨hcb, -, v, recent, -, -, rfl⟩ |
    ⟨hcb, -, v, recent, -, -, -, rfl⟩ | ⟨hcb, -, recent, -, -, rfl⟩
  · exact .inl hcb
  · exact .inr ⟨hcb, .spent v rfl rfl rfl (by dsimp only; omega)⟩
  · exact .inr ⟨hcb, .spent v rfl rfl rfl (by dsimp only; omega)⟩
  · exact .inr ⟨hcb, .spent v rfl rfl rfl (by dsimp only; omega)⟩
  · exact .inr ⟨hcb, .missing rfl rfl rfl (by dsimp only; omega)⟩

theorem Accounted.resolveInputs {inputs : List InputRow} (h : Accounted height txCount seen st)
    (hloop : Bidx.resolveInputs db undoEnabled faults height inputs st = .ok st') :
    Accounted height txCount (seen ++ spendingInputs inputs) st' := by
  induction inputs generalizing seen st with
  | nil =>
      obtain rfl := Except.ok.inj hloop
      rw [spendingInputs, List.filter_nil, List.append_nil]
      exact h
  | cons inp inputs ih =>
      obtain ⟨st₁, hstep, hrest⟩ := resolveInputs_cons_eq_ok.mp hloop
      rcases resolveInput_booked hstep with ⟨hcb, rfl⟩ | ⟨hcb, hbooked⟩
      · rw [spendingInputs, List.filter_cons_of_neg (by simp [hcb])]
        exact ih h hrest
      · rw [spendingInputs, List.filter_cons_of_pos (by simp [hcb]), ← List.singleton_append,
          ← List.append_assoc]
        exact ih (h.booked hbooked) hrest

theorem Accounted.resolveInputs_goes_on {inputs : List InputRow}
    (h : Accounted height txCount seen st)
    (hrange : ∀ inp ∈ inputs, inp.txIndex.toNat < txCount) :
    (∃ st', Bidx.resolveInputs db undoEnabled faults height inputs st = .ok st') ∨
      ∃ recent, Bidx.resolveInputs db undoEnabled faults height inputs st =
          .error ⟨.error .rocks, recent⟩ ∧ ∃ n, faults.get n = true := by
  induction inputs generalizing seen st with
  | nil => exact .inl ⟨st, rfl⟩
  | cons inp inputs ih =>
      have hlt : inp.txIndex.toNat < st.fees.length := by
        rw [h.length_fees]
        exact hrange inp List.mem_cons_self
      have hrest : ∀ inp' ∈ inputs, inp'.txIndex.toNat < txCount :=
        fun inp' hmem => hrange inp' (List.mem_cons_of_mem _ hmem)
      rw [Bidx.resolveInputs]
      rcases @resolveInput_goes_on db undoEnabled faults height st inp hlt with
        ⟨st₁, hstep⟩ | ⟨recent, hstep, hfault⟩
      · rw [hstep]
        rcases resolveInput_booked hstep with ⟨-, rfl⟩ | ⟨-, hbooked⟩
        · exact ih h hrest
        · exact ih (h.booked hbooked) hrest
      · rw [hstep]
        exact .inr ⟨recent, rfl, hfault⟩

/-- The charges of outputs in range go through. -/
theorem Accounted.subtractOutputs {outputs : List OutputRow}
    (h : Accounted height txCount seen st)
    (hrange : ∀ out ∈ outputs, out.txIndex.toNat < txCount) :
    Bidx.subtractOutputs outputs st.fees =
      some (Bidx.booked saturatingSub st.fees (outputs.map OutputRow.charge)) := by
  apply subtractOutputs_eq
  rw [h.length_fees]
  exact hrange

end Loop

/-! ## The call -/

/-- The fee of transaction `i`: what its spend rows bring in, as far as it fits in a
word, less what its outputs carry away. -/
def feeOf (spends : List SpendRow) (outputs : List OutputRow) (i : Nat) : Nat :=
  min (2 ^ 64 - 1)
      ((spends.filter fun row => row.spendingTxIndex.toNat = i).map
        fun row => row.spentValueSat.toNat).sum -
    ((outputs.filter fun out => out.txIndex.toNat = i).map fun out => out.valueSat.toNat).sum

/-- Adding up with saturation, then subtracting, comes down to `feeOf`. -/
theorem toNat_fees_booked (txCount : Nat) (spends : List SpendRow) (outputs : List OutputRow) :
    (booked saturatingSub
        (booked saturatingAdd (List.replicate txCount 0) (spends.map SpendRow.credit))
        (outputs.map OutputRow.charge)).map UInt64.toNat =
      (List.range txCount).map (feeOf spends outputs) := by
  apply List.ext_getElem?
  intro i
  rw [List.getElem?_map, getElem?_booked, getElem?_booked, List.getElem?_map]
  by_cases hi : i < txCount
  · have hzero : (0 : UInt64).toNat = 0 := rfl
    have hcredits : (((spends.map SpendRow.credit).filter fun e => e.1 = i).map Prod.snd).map
        UInt64.toNat = (spends.filter fun row => row.spendingTxIndex.toNat = i).map
          fun row => row.spentValueSat.toNat := by
      rw [List.filter_map, List.map_map, List.map_map]
      rfl
    have hcharges : (((outputs.map OutputRow.charge).filter fun e => e.1 = i).map Prod.snd).map
        UInt64.toNat = (outputs.filter fun out => out.txIndex.toNat = i).map
          fun out => out.valueSat.toNat := by
      rw [List.filter_map, List.map_map, List.map_map]
      rfl
    rw [List.getElem?_replicate, if_pos hi, List.getElem?_range hi]
    simp only [Option.map_some, toNat_foldl_saturatingSub, toNat_foldl_saturatingAdd, hcredits,
      hcharges, hzero, Nat.zero_add]
    rw [Nat.min_comm, feeOf]
  · simp [hi]

/-- The books of a call that returned. -/
structure Accounts (height : UInt32) (txs : List TxRow) (inputs : List InputRow)
    (outputs : List OutputRow) (res : SpendResult) : Prop where
  resolved : res.spends.length + res.missing = (spendingInputs inputs).length
  lookups : res.pendingHits + res.cacheHits + res.dbLookups = (spendingInputs inputs).length
  rows : ∃ hits, hits.Sublist (spendingInputs inputs) ∧ List.Forall₂ (RowOf height) res.spends hits
  fees : res.fees.map UInt64.toNat = (List.range txs.length).map (feeOf res.spends outputs)

/-- On any block whose rows belong to its transactions, over any store and in any mode,
`apply_block` returns balanced books or fails because RocksDB did. -/
theorem applyBlock_accounts (order : IterOrder Key UtxoValue) (faults : RocksFaults)
    (s : UtxoStore) (height : UInt32) (txs : List TxRow) (inputs : List InputRow)
    (outputs : List OutputRow) (hrange : RowsInRange txs inputs outputs) :
    (∃ res s', s.applyBlock order faults height txs inputs outputs = (.ok res, s') ∧
        Accounts height txs inputs outputs res) ∨
      ∃ s', s.applyBlock order faults height txs inputs outputs = (.error (.error .rocks), s') ∧
        (faults.write = true ∨ ∃ n, faults.get n = true) := by
  have hinit := accounted_initial s.recent height txs outputs
  have hruns : (∃ st, resolveInputs s.db s.undoEnabled faults height inputs
        (initialLoop s.recent height txs outputs) = .ok st) ∨
      ∃ recent, resolveInputs s.db s.undoEnabled faults height inputs
          (initialLoop s.recent height txs outputs) = .error ⟨.error .rocks, recent⟩ ∧
        ∃ n, faults.get n = true := hinit.resolveInputs_goes_on hrange.inputs
  unfold UtxoStore.applyBlock
  rcases hruns with ⟨st, hloop⟩ | ⟨recent, hloop, hfault⟩
  · have hbooks := hinit.resolveInputs hloop
    rw [List.nil_append] at hbooks
    simp only [hloop, hbooks.subtractOutputs hrange.outputs]
    by_cases hwrite : faults.write = true
    · rw [if_pos hwrite]
      exact .inr ⟨_, rfl, .inl hwrite⟩
    · rw [if_neg hwrite]
      refine .inl ⟨_, _, rfl, ⟨hbooks.resolved, hbooks.lookups, hbooks.rows, ?_⟩⟩
      rw [hbooks.fees]
      exact toNat_fees_booked txs.length st.spends outputs
  · simp only [hloop]
    exact .inr ⟨_, rfl, .inr hfault⟩

/-- Two inputs that name the same outpoint, one that names nothing, and an output worth
more than all of them. -/
theorem applyBlock_accounts_sample :
    RowsInRange [sampleTx 0 2] [sampleSpend 0 1, sampleSpend 0 1, sampleSpend 0 9]
        [sampleOutput 0 2 400] ∧
      ((∃ res s', (UtxoStore.openCached sampleDb 224).applyBlock (.stored _ _) .none 7
            [sampleTx 0 2] [sampleSpend 0 1, sampleSpend 0 1, sampleSpend 0 9]
            [sampleOutput 0 2 400] = (.ok res, s') ∧
          Accounts 7 [sampleTx 0 2] [sampleSpend 0 1, sampleSpend 0 1, sampleSpend 0 9]
            [sampleOutput 0 2 400] res) ∨
        ∃ s', (UtxoStore.openCached sampleDb 224).applyBlock (.stored _ _) .none 7
            [sampleTx 0 2] [sampleSpend 0 1, sampleSpend 0 1, sampleSpend 0 9]
            [sampleOutput 0 2 400] = (.error (.error .rocks), s') ∧
          (RocksFaults.none.write = true ∨ ∃ n, RocksFaults.none.get n = true)) :=
  ⟨⟨by decide, by decide⟩,
    applyBlock_accounts (.stored _ _) .none (.openCached sampleDb 224) 7 [sampleTx 0 2]
      [sampleSpend 0 1, sampleSpend 0 1, sampleSpend 0 9] [sampleOutput 0 2 400]
      ⟨by decide, by decide⟩⟩

end Bidx
