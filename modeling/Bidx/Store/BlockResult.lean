import Bidx.Store.BlockEffect

/-!
# What a parsed block's call returns

The rows and fees `apply_block` returns depend, like the table it leaves, on the UTXO
table alone: a bulk store and a live store that hold the same table answer a block the
same way.  For rows that spend no outpoint twice the answer is given input by input.
-/

namespace Bidx

open KeyValue

/-! ## The undo flag -/

/-- The loop variables without the ones kept for the undo record. -/
def InputLoop.forgetUndo (st : InputLoop) : InputLoop :=
  { st with undoSpent := [], sameBlock := [] }

section Forget

variable {db : Db} {undoEnabled : Bool} {faults : RocksFaults} {height : UInt32}

theorem recordSpend_forgetUndo (inp : InputRow) (v : UtxoValue) (st : InputLoop) :
    (recordSpend height inp v st).map InputLoop.forgetUndo =
      recordSpend height inp v st.forgetUndo := by
  by_cases hlt : inp.txIndex.toNat < st.fees.length
  · rw [recordSpend, if_pos hlt, recordSpend, if_pos (show _ < st.forgetUndo.fees.length from hlt)]
    rfl
  · rw [recordSpend, if_neg hlt, recordSpend,
      if_neg (show ¬_ < st.forgetUndo.fees.length from hlt)]
    rfl

theorem lookupDb_forgetUndo (inp : InputRow) (st : InputLoop) :
    (lookupDb db undoEnabled faults height inp st).map InputLoop.forgetUndo =
      lookupDb db false faults height inp st.forgetUndo := by
  unfold lookupDb
  by_cases hfault : faults.get st.dbLookups = true
  · rw [if_pos hfault, if_pos (show faults.get st.forgetUndo.dbLookups = true from hfault)]
    rfl
  · rw [if_neg hfault, if_neg (show ¬faults.get st.forgetUndo.dbLookups = true from hfault)]
    cases hv : (db.utxo inp.key).bind UtxoValue.decode with
    | some v => exact recordSpend_forgetUndo inp v _
    | none => rfl

theorem resolveInput_forgetUndo (inp : InputRow) (st : InputLoop) :
    (resolveInput db undoEnabled faults height st inp).map InputLoop.forgetUndo =
      resolveInput db false faults height st.forgetUndo inp := by
  unfold resolveInput
  by_cases hcb : inp.isCoinbase = true
  · rw [if_pos hcb, if_pos hcb]
    rfl
  · rw [if_neg hcb, if_neg hcb]
    have hpending : st.forgetUndo.pending = st.pending := rfl
    have hcache : st.forgetUndo.recent = st.recent := rfl
    rw [hpending, hcache]
    cases hpend : st.pending.lookup inp.key with
    | some v => exact recordSpend_forgetUndo inp v _
    | none =>
        rcases hrecent : removeRecent st.recent inp.key with ⟨_ | v, recent⟩
        · exact lookupDb_forgetUndo inp _
        · exact recordSpend_forgetUndo inp v _

theorem resolveInputs_forgetUndo (inputs : List InputRow) (st : InputLoop) :
    (resolveInputs db undoEnabled faults height inputs st).map InputLoop.forgetUndo =
      resolveInputs db false faults height inputs st.forgetUndo := by
  induction inputs generalizing st with
  | nil => rfl
  | cons inp inputs ih =>
      have hstep := @resolveInput_forgetUndo db undoEnabled faults height inp st
      rw [resolveInputs, resolveInputs, ← hstep]
      cases hres : resolveInput db undoEnabled faults height st inp with
      | ok st₁ => exact ih st₁
      | error aborted => rfl

end Forget

/-! ## The result -/

/-- What a call returns for a parsed block over a table. -/
def spendResult (height : UInt32) (block : FullBlock) (S : Table) : SpendResult :=
  match (S.store.applyFull (.stored _ _) height block).1 with
  | .ok res => res
  -- Does not happen on parsed rows.
  | .error _ => ⟨[], [], 0, 0, 0, 0⟩

/-- What a call that gets through returns. -/
theorem applyFull_returns {order : IterOrder Key UtxoValue} {s s' : UtxoStore} {height : UInt32}
    {block : FullBlock} {st : InputLoop} {res : SpendResult} (hrecent : s.recent = none)
    (hloop : resolveInputs s.db s.undoEnabled .none height block.inputs
      (initialLoop none height block.txs block.outputs) = .ok st)
    (h : s.applyFull order height block = (.ok res, s')) :
    ∃ fees, subtractOutputs block.outputs st.fees = some fees ∧
      res = st.result fees := by
  obtain ⟨st', fees, hloop', hfees, -, rfl, -⟩ := applyBlock_eq_ok h
  rw [hrecent, hloop] at hloop'
  obtain rfl := Except.ok.inj hloop'
  exact ⟨fees, hfees, rfl⟩

section Result

variable {height : UInt32} {block : FullBlock} {S : Table}

/-- Up to what is kept for the undo record, the loop is the one over the bare table. -/
theorem resolveInputs_bare (s : UtxoStore) (height : UInt32) {inputs : List InputRow}
    {loop st st' : InputLoop}
    (h : resolveInputs s.db s.undoEnabled .none height inputs loop = .ok st)
    (h' : resolveInputs (Table.store s.db.utxo).db true .none height inputs loop = .ok st') :
    st.forgetUndo = st'.forgetUndo := by
  have hforget := @resolveInputs_forgetUndo s.db s.undoEnabled .none height inputs loop
  have hforget' :=
    @resolveInputs_forgetUndo (Table.store s.db.utxo).db true .none height inputs loop
  have hsame := @resolveInputs_congr (Table.store s.db.utxo).db s.db rfl false .none height inputs
    loop.forgetUndo
  rw [h] at hforget
  rw [h', hsame, ← hforget] at hforget'
  exact (Except.ok.inj hforget').symm

/-- A call on any store without a cache, bulk or live: the result and the table are
those of the table it starts from. -/
theorem applyFull_result (order : IterOrder Key UtxoValue) (height : UInt32) {s : UtxoStore}
    (hrecent : s.recent = none) (hshape : block.WellShaped) :
    ∃ s', s.applyFull order height block = (.ok (spendResult height block s.db.utxo), s') ∧
      s'.db.utxo = tableAfter height block s.db.utxo ∧ s'.db.tip = s.db.tip ∧
      s'.recent = none ∧ s'.undoEnabled = s.undoEnabled := by
  obtain ⟨res, st, -, hloop, -, hres⟩ := applyFull_of_shape order height hrecent hshape
  have hbare := (Table.live_store s.db.utxo).recent
  obtain ⟨res', st', -, hloop', -, hres'⟩ :=
    applyFull_of_shape (.stored _ _) height hbare hshape
  have hforget := resolveInputs_bare s height hloop hloop'
  have hresult : res = spendResult height block s.db.utxo := by
    obtain ⟨fees, hfees, rfl⟩ := applyFull_returns hrecent hloop hres
    obtain ⟨fees', hfees', rfl⟩ := applyFull_returns hbare hloop' hres'
    have hsame : fees = fees' := by
      have hcharged : subtractOutputs block.outputs st.forgetUndo.fees = some fees := hfees
      rw [hforget] at hcharged
      exact Option.some.inj (hcharged.symm.trans hfees')
    rw [spendResult, hres', hsame]
    show st.forgetUndo.result fees' = st'.forgetUndo.result fees'
    rw [hforget]
  subst hresult
  refine ⟨_, hres, ?_, rfl, hrecent, rfl⟩
  -- The batch is made of the loop's deletes and its pending map.
  have hbatch : st.forgetUndo.batch = st'.forgetUndo.batch := by rw [hforget]
  have hpending : st.forgetUndo.pending = st'.forgetUndo.pending := by rw [hforget]
  change st.batch = st'.batch at hbatch
  change st.pending = st'.pending at hpending
  funext k
  rw [tableAfter, hres']
  show write s.db.utxo _ k = write s.db.utxo _ k
  simp only [blockBatch, write_append, write_puts_iterOrder, hbatch, hpending]

theorem applyFull_live_result (order : IterOrder Key UtxoValue) {s : UtxoStore} (hlive : s.Live)
    (height : UInt32) (hshape : block.WellShaped) :
    s.applyFull order height block =
      (.ok (spendResult height block s.db.utxo), s.advanced height block) := by
  obtain ⟨s', hs', -⟩ := applyFull_result order height hlive.recent hshape
  obtain ⟨res, hres⟩ := applyFull_live order hlive height hshape
  rw [hres] at hs'
  obtain ⟨hok, -⟩ := Prod.mk.inj hs'
  rw [hres, hok]

/-- What an input of the block is resolved to over a table: an output of the block
itself comes before one of the table. -/
def resolvedOver (height : UInt32) (block : FullBlock) (S : Table) : InputRow → Option UtxoValue :=
  resolved S.store.db (seedPending height block.outputs)

/-- The amounts charged to the transactions of a block. -/
def charges (outputs : List OutputRow) : List (Nat × UInt64) :=
  outputs.map fun out => (out.txIndex.toNat, out.valueSat)

/-- The result of rows that spend no outpoint twice. -/
theorem spendResult_rows (height : UInt32) (S : Table) (hshape : block.WellShaped)
    (hnodup : (spentKeys block.inputs).Nodup) :
    (spendResult height block S).spends =
        spendRows height (resolvedOver height block S) block.inputs ∧
      (spendResult height block S).fees = booked saturatingSub
        (booked saturatingAdd (List.replicate block.txs.length 0)
          (credits (resolvedOver height block S) block.inputs)) (charges block.outputs) := by
  have hinit := DirectLoop.initial S.store.db true height block.txs block.outputs
  have hlength : (initialLoop none height block.txs block.outputs).fees.length =
      block.txs.length := List.length_replicate
  obtain ⟨st, hloop, hspends, hfees, -⟩ := resolveInputs_rows height hinit
    (by rwa [List.nil_append]) (fun inp hinp => hlength ▸ hshape.inputs inp hinp)
  obtain ⟨s', hs', -⟩ := applyFull_result (.stored _ _) height S.live_store.recent hshape
  obtain ⟨fees, hcharged, hres⟩ := applyFull_returns S.live_store.recent hloop hs'
  change spendResult height block S = _ at hres
  have houtputs : ∀ out ∈ block.outputs, out.txIndex.toNat < st.fees.length := by
    intro out hout
    rw [hfees, length_booked, hlength]
    exact hshape.outputs out hout
  rw [subtractOutputs_eq houtputs, hfees] at hcharged
  rw [hres]
  exact ⟨by rw [InputLoop.result, hspends]; rfl, (Option.some.inj hcharged).symm⟩

theorem resolvedOver_of_created {inp : InputRow} (T : Table)
    (hcreated : inp.key ∈ createdKeys block.outputs) :
    resolvedOver height block S inp = resolvedOver height block T inp := by
  have hne : (seedPending height block.outputs).lookup inp.key ≠ none := fun hnone =>
    lookup_seedPending_eq_none.mp hnone hcreated
  obtain ⟨v, hv⟩ := Option.ne_none_iff_exists'.mp hne
  rw [resolvedOver, resolvedOver, resolved, resolved, hv]
  rfl

theorem resolvedOver_of_notMem {inp : InputRow} (height : UInt32) (S : Table)
    (hnot : inp.key ∉ createdKeys block.outputs) :
    resolvedOver height block S inp = (S inp.key).bind UtxoValue.decode := by
  rw [resolvedOver, resolved, lookup_seedPending_eq_none.mpr hnot]
  rfl

/-- The result depends on the outpoints the block spends from the table only. -/
theorem spendResult_congr (height : UInt32) {T : Table} (hshape : block.WellShaped)
    (hnodup : (spentKeys block.inputs).Nodup)
    (hsame : ∀ k ∈ spentKeys block.inputs, k ∉ createdKeys block.outputs → S k = T k) :
    (spendResult height block S).spends = (spendResult height block T).spends ∧
      (spendResult height block S).fees = (spendResult height block T).fees := by
  have hfound : ∀ inp ∈ block.inputs.filter fun inp => !inp.isCoinbase,
      resolvedOver height block S inp = resolvedOver height block T inp := by
    intro inp hinp
    by_cases hcreated : inp.key ∈ createdKeys block.outputs
    · exact resolvedOver_of_created T hcreated
    · rw [resolvedOver_of_notMem height S hcreated, resolvedOver_of_notMem height T hcreated,
        hsame inp.key (List.mem_map_of_mem hinp) hcreated]
  obtain ⟨hspends, hfees⟩ := spendResult_rows height S hshape hnodup
  obtain ⟨hspends', hfees'⟩ := spendResult_rows height T hshape hnodup
  have hrows : spendRows height (resolvedOver height block S) block.inputs =
      spendRows height (resolvedOver height block T) block.inputs :=
    List.filterMap_congr fun inp hinp => by rw [hfound inp hinp]
  have hcredits : credits (resolvedOver height block S) block.inputs =
      credits (resolvedOver height block T) block.inputs :=
    List.filterMap_congr fun inp hinp => by rw [hfound inp hinp]
  exact ⟨by rw [hspends, hspends', hrows], by rw [hfees, hfees', hcredits]⟩

/-- Lists of found values that are equal, where one of them has a value for every
position. -/
theorem eq_of_filterMap_eq {α β : Type} {f g : α → Option β} {l : List α}
    (hsome : ∀ a ∈ l, f a ≠ none) (h : l.filterMap g = l.filterMap f) : ∀ a ∈ l, g a = f a := by
  induction l with
  | nil => exact fun _ hmem => absurd hmem List.not_mem_nil
  | cons a l ih =>
      obtain ⟨x, hx⟩ := Option.ne_none_iff_exists'.mp (hsome a List.mem_cons_self)
      have hrest : ∀ a' ∈ l, f a' ≠ none := fun a' ha' => hsome a' (List.mem_cons_of_mem _ ha')
      rw [List.filterMap_cons_some hx] at h
      cases hg : g a with
      | none =>
          -- Then there are fewer values of `g` than of `f`.
          have hall : (l.filterMap f).length = l.length := by
            rw [List.length_filterMap_eq_countP, List.countP_eq_length]
            intro a' ha'
            exact Option.isSome_iff_ne_none.mpr (hrest a' ha')
          have hlength := congrArg List.length h
          rw [List.filterMap_cons_none hg, List.length_cons, hall] at hlength
          have := List.length_filterMap_le g l
          omega
      | some y =>
          rw [List.filterMap_cons_some hg, List.cons.injEq] at h
          intro a' ha'
          rcases List.mem_cons.mp ha' with rfl | hmem
          · rw [hg, hx, h.1]
          · exact ih hrest h.2 a' hmem

theorem spendRow_injective (height : UInt32) (inp : InputRow) :
    Function.Injective (spendRow height inp) := by
  rintro ⟨sat, type, createdAt, hash⟩ ⟨sat', type', createdAt', hash'⟩ h
  obtain ⟨-, -, -, -, -, -, rfl, rfl, rfl, rfl⟩ := SpendRow.mk.inj h
  rfl

/-- The rows of a valid block show what it spent from the table. -/
theorem ValidOver.value_eq_of_spends {T : Table} (valid : ValidOver S block)
    (hshape : block.WellShaped) (hdec : S.Decodes)
    (h : (spendResult height block T).spends = (spendResult height block S).spends) {k : Key}
    (hspent : k ∈ spentKeys block.inputs) (hnot : k ∉ createdKeys block.outputs) :
    (T k).bind UtxoValue.decode = (S k).bind UtxoValue.decode := by
  have hsome : ∀ inp ∈ block.inputs.filter fun inp => !inp.isCoinbase,
      (resolvedOver height block S inp).map (spendRow height inp) ≠ none := by
    intro inp hinp
    rw [ne_eq, Option.map_eq_none_iff]
    by_cases hcreated : inp.key ∈ createdKeys block.outputs
    · intro hnone
      rw [resolvedOver, resolved, Option.or_eq_none_iff, lookup_seedPending_eq_none] at hnone
      exact hnone.1 hcreated
    · obtain ⟨raw, hraw⟩ := Option.ne_none_iff_exists'.mp
        (valid.spent_known (List.mem_map_of_mem hinp) hcreated)
      obtain ⟨v, hv⟩ := hdec _ raw hraw
      rw [resolvedOver_of_notMem height S hcreated, hraw, Option.bind_some, hv]
      exact Option.some_ne_none v
  rw [(spendResult_rows height T hshape valid.spent_nodup).1,
    (spendResult_rows height S hshape valid.spent_nodup).1] at h
  obtain ⟨inp, hinp, rfl⟩ := List.mem_map.mp hspent
  have hrow := eq_of_filterMap_eq hsome h inp hinp
  rw [← resolvedOver_of_notMem height T hnot, ← resolvedOver_of_notMem height S hnot]
  exact Option.map_injective (spendRow_injective height inp) hrow

end Result

end Bidx
