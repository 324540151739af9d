import Bidx.Lib.Ledger
import Bidx.Store.ApplySpec
import Bidx.Store.CacheInvisible

/-!
# `apply_block` refines the sequential ledger

The abstract ledger applies a block's transactions one by one.  `apply_block`
does not: it preloads all outputs, resolves the inputs of all transactions
against them and the database of before the block, and charges outputs to fees
in a second pass.  For a block that is valid in order the two agree.

The bridge is the closed form of the abstract ledger.  It says what every spent
outpoint holds when it is spent, independently of the position in the block, and
that is what the pending map or the database answers.
-/

namespace Bidx

open KeyValue

/-- A transaction of a block with its rows. -/
structure LedgerTx where
  row : TxRow
  inputs : List InputRow
  outputs : List OutputRow

namespace LedgerTx

/-- The non-coinbase inputs. -/
def spending (tx : LedgerTx) : List InputRow := tx.inputs.filter fun inp => !inp.isCoinbase

/-- A coinbase transaction spends nothing. -/
def isCoinbase (tx : LedgerTx) : Bool := tx.inputs.all InputRow.isCoinbase

/-- What the transaction does to the ledger, in a block at `height`. -/
def effect (height : UInt32) (tx : LedgerTx) : Ledger.Tx Key UtxoValue where
  spent := spentKeys tx.inputs
  created := tx.outputs.map fun out => (out.key, out.value height)

/-- The total its inputs bring in, from the outputs they find in `S`. -/
def inputTotal (S : Key → Option UtxoValue) (tx : LedgerTx) : Nat :=
  (tx.spending.map fun inp => ((S inp.key).map fun v => v.valueSat.toNat).getD 0).sum

/-- The total its outputs carry away. -/
def outputTotal (tx : LedgerTx) : Nat := (tx.outputs.map fun out => out.valueSat.toNat).sum

end LedgerTx

/-- The ledger after a list of transactions of a block at `height`. -/
def ledgerAfter (height : UInt32) (S : Key → Option UtxoValue) (txs : List LedgerTx) :
    Key → Option UtxoValue :=
  Ledger.applyAll S (txs.map (LedgerTx.effect height))

/-- The rows of a block are tagged with the positions of their transactions, the
transactions are valid in order, and no non-coinbase transaction pays out more
than it brings in. -/
structure ValidBlock (height : UInt32) (S : Key → Option UtxoValue) (txs : List LedgerTx) :
    Prop where
  indexed : ∀ (i : Nat) (tx : LedgerTx), txs[i]? = some tx →
    (∀ inp ∈ tx.inputs, inp.txIndex.toNat = i) ∧ ∀ out ∈ tx.outputs, out.txIndex.toNat = i
  ledger : Ledger.Valid S (txs.map (LedgerTx.effect height))
  totals : ∀ (i : Nat) (tx : LedgerTx), txs[i]? = some tx → tx.isCoinbase = false →
    tx.outputTotal ≤ tx.inputTotal (ledgerAfter height S (txs.take i)) ∧
      tx.inputTotal (ledgerAfter height S (txs.take i)) < 2 ^ 64

/-- The non-coinbase inputs of a block in order, each with what the sequential
ledger holds at its outpoint when its transaction is reached. -/
def resolvedInputs (height : UInt32) :
    (Key → Option UtxoValue) → List LedgerTx → List (InputRow × Option UtxoValue)
  | _, [] => []
  | S, tx :: txs =>
      (tx.spending.map fun inp => (inp, S inp.key)) ++
        resolvedInputs height (Ledger.apply S (tx.effect height)) txs

/-! ## Saturating sums -/

theorem toNat_saturatingAdd (a b : UInt64) :
    (saturatingAdd a b).toNat = min (a.toNat + b.toNat) (2 ^ 64 - 1) := by
  rw [saturatingAdd, UInt64.toNat_ofNat', Nat.mod_eq_of_lt]
  omega

theorem toNat_saturatingSub (a b : UInt64) : (saturatingSub a b).toNat = a.toNat - b.toNat := by
  have ha : a.toNat < 2 ^ 64 := a.toNat_lt
  rw [saturatingSub, UInt64.toNat_ofNat', Nat.mod_eq_of_lt]
  omega

theorem toNat_foldl_saturatingAdd (l : List UInt64) (a : UInt64) :
    (l.foldl saturatingAdd a).toNat =
      min (a.toNat + (l.map UInt64.toNat).sum) (2 ^ 64 - 1) := by
  induction l generalizing a with
  | nil =>
      have ha : a.toNat < 2 ^ 64 := a.toNat_lt
      simp only [List.foldl_nil, List.map_nil, List.sum_nil]
      omega
  | cons b l ih =>
      rw [List.foldl_cons, ih, toNat_saturatingAdd, List.map_cons, List.sum_cons]
      omega

theorem toNat_foldl_saturatingSub (l : List UInt64) (a : UInt64) :
    (l.foldl saturatingSub a).toNat = a.toNat - (l.map UInt64.toNat).sum := by
  induction l generalizing a with
  | nil => simp
  | cons b l ih =>
      rw [List.foldl_cons, ih, toNat_saturatingSub, List.map_cons, List.sum_cons]
      omega

/-! ## Booking amounts to transactions

Credits and charges are the same loop over a list of `(transaction, amount)`
pairs; `booked f` runs it with the operation `f`. -/

/-- Book each amount to its transaction with `f`. -/
def booked (f : UInt64 → UInt64 → UInt64) (fees : List UInt64) (amounts : List (Nat × UInt64)) :
    List UInt64 :=
  amounts.foldl (fun fees e => fees.modify e.1 (f · e.2)) fees

@[simp] theorem length_booked (f : UInt64 → UInt64 → UInt64) (fees : List UInt64)
    (amounts : List (Nat × UInt64)) : (booked f fees amounts).length = fees.length := by
  induction amounts generalizing fees with
  | nil => rfl
  | cons e amounts ih => rw [booked, List.foldl_cons, ← booked, ih, List.length_modify]

/-- One transaction's entry sees exactly its own amounts, in order. -/
theorem getElem?_booked (f : UInt64 → UInt64 → UInt64) (fees : List UInt64)
    (amounts : List (Nat × UInt64)) (i : Nat) :
    (booked f fees amounts)[i]? =
      fees[i]?.map fun fee => ((amounts.filter fun e => e.1 = i).map Prod.snd).foldl f fee := by
  induction amounts generalizing fees with
  | nil => simp [booked]
  | cons e amounts ih =>
      rw [booked, List.foldl_cons, ← booked, ih, List.getElem?_modify]
      by_cases he : e.1 = i
      · simp [he, Option.map_map, Function.comp_def]
      · simp [he]

theorem subtractOutputs_eq {outputs : List OutputRow} {fees : List UInt64}
    (h : ∀ out ∈ outputs, out.txIndex.toNat < fees.length) :
    subtractOutputs outputs fees =
      some (booked saturatingSub fees
        (outputs.map fun out => (out.txIndex.toNat, out.valueSat))) := by
  induction outputs generalizing fees with
  | nil => rfl
  | cons out outputs ih =>
      rw [subtractOutputs, if_pos (h out List.mem_cons_self), ih]
      · rfl
      · intro out' hout'
        rw [List.length_modify]
        exact h out' (List.mem_cons_of_mem _ hout')

/-! ## The input loop -/

section Loop

variable {db : Db} {undoEnabled : Bool}

/-- An input whose outpoint is pending or in the database is resolved to that
output. -/
theorem resolveInput_ok (height : UInt32) {st : InputLoop} {inp : InputRow} {v : UtxoValue}
    (hrecent : st.recent = none) (hcb : inp.isCoinbase = false)
    (hlt : inp.txIndex.toNat < st.fees.length)
    (hv : (st.pending.lookup inp.key).or (db.value inp.key) = some v) :
    ∃ st', resolveInput db undoEnabled .none height st inp = .ok st' ∧
      st'.spends = st.spends ++ [spendRow height inp v] ∧
      st'.fees = st.fees.modify inp.txIndex.toNat (saturatingAdd · v.valueSat) ∧
      st'.missing = st.missing := by
  unfold resolveInput
  rw [if_neg (by simp [hcb])]
  cases hpend : st.pending.lookup inp.key with
  | some w =>
      rw [hpend, Option.some_or] at hv
      obtain rfl := Option.some.inj hv
      simp only [recordSpend, if_pos hlt]
      exact ⟨_, rfl, rfl, rfl, rfl⟩
  | none =>
      rw [hpend, Option.none_or] at hv
      have hbind : (db.utxo inp.key).bind UtxoValue.decode = some v := hv
      simp only [removeRecent, hrecent, lookupDb, RocksFaults.none, Bool.false_eq_true, if_false,
        hbind, recordSpend, if_pos hlt]
      exact ⟨_, rfl, rfl, rfl, rfl⟩

/-- An input whose outpoint is neither pending nor in the database is missing. -/
theorem resolveInput_missing (height : UInt32) {st : InputLoop} {inp : InputRow}
    (hrecent : st.recent = none) (hcb : inp.isCoinbase = false)
    (hv : (st.pending.lookup inp.key).or (db.value inp.key) = none) :
    resolveInput db undoEnabled .none height st inp =
      .ok { st with dbLookups := st.dbLookups + 1, missing := st.missing + 1 } := by
  obtain ⟨hpend, hval⟩ := Option.or_eq_none_iff.mp hv
  have hbind : (db.utxo inp.key).bind UtxoValue.decode = none := hval
  rw [resolveInput, if_neg (by simp [hcb])]
  simp only [hpend, removeRecent, hrecent, lookupDb, hbind, RocksFaults.none,
    Bool.false_eq_true, if_false]

/-- What the outpoint of an input is resolved to. -/
def resolved (db : Db) (seeded : UtxoMap) (inp : InputRow) : Option UtxoValue :=
  (seeded.lookup inp.key).or (db.value inp.key)

/-- The spend rows of a list of inputs. -/
def spendRows (height : UInt32) (found : InputRow → Option UtxoValue) (inputs : List InputRow) :
    List SpendRow :=
  (inputs.filter fun inp => !inp.isCoinbase).filterMap fun inp =>
    (found inp).map (spendRow height inp)

/-- What they credit to their transactions. -/
def credits (found : InputRow → Option UtxoValue) (inputs : List InputRow) :
    List (Nat × UInt64) :=
  (inputs.filter fun inp => !inp.isCoinbase).filterMap fun inp =>
    (found inp).map fun v => (inp.txIndex.toNat, v.valueSat)

theorem spendRows_of_found (height : UInt32) {found : InputRow → Option UtxoValue}
    {value : InputRow → UtxoValue} {inputs : List InputRow}
    (h : ∀ inp ∈ inputs.filter fun inp => !inp.isCoinbase, found inp = some (value inp)) :
    spendRows height found inputs =
      (inputs.filter fun inp => !inp.isCoinbase).map fun inp => spendRow height inp (value inp) := by
  rw [spendRows, ← List.filterMap_eq_map']
  exact List.filterMap_congr fun inp hinp => by rw [h inp hinp]; rfl

theorem credits_of_found {found : InputRow → Option UtxoValue} {value : InputRow → UtxoValue}
    {inputs : List InputRow}
    (h : ∀ inp ∈ inputs.filter fun inp => !inp.isCoinbase, found inp = some (value inp)) :
    credits found inputs = (inputs.filter fun inp => !inp.isCoinbase).map
      fun inp => (inp.txIndex.toNat, (value inp).valueSat) := by
  rw [credits, ← List.filterMap_eq_map']
  exact List.filterMap_congr fun inp hinp => by rw [h inp hinp]; rfl

/-- What the rounds over `inputs` add to the spend rows, the fees and the count of missing
inputs. -/
structure RowsAdded (height : UInt32) (found : InputRow → Option UtxoValue)
    (inputs : List InputRow) (st st' : InputLoop) : Prop where
  spends : st'.spends = st.spends ++ spendRows height found inputs
  fees : st'.fees = booked saturatingAdd st.fees (credits found inputs)
  missing : st'.missing = st.missing + (inputs.filter fun inp => !inp.isCoinbase).countP
    fun inp => (found inp).isNone

theorem RowsAdded.cons {height : UInt32} {found : InputRow → Option UtxoValue}
    {inp : InputRow} {inputs : List InputRow} {st mid st' : InputLoop}
    (h : RowsAdded height found [inp] st mid) (h' : RowsAdded height found inputs mid st') :
    RowsAdded height found (inp :: inputs) st st' where
  spends := by
    rw [h'.spends, h.spends, List.append_assoc, spendRows, spendRows, spendRows,
      ← List.filterMap_append, ← List.filter_append, List.singleton_append]
  fees := by
    rw [h'.fees, h.fees, booked, booked, booked, ← List.foldl_append, credits, credits, credits,
      ← List.filterMap_append, ← List.filter_append, List.singleton_append]
  missing := by
    rw [h'.missing, h.missing, Nat.add_assoc, ← List.countP_append, ← List.filter_append,
      List.singleton_append]

/-- One round over an outpoint not named before. -/
theorem resolveInput_rows (height : UInt32) {seeded : UtxoMap} {seen : List Key}
    {reads : List (Key × UtxoValue)} {st : InputLoop} {inp : InputRow}
    (inv : DirectLoop db undoEnabled seeded seen reads st)
    (hunseen : inp.isCoinbase = false → inp.key ∉ seen)
    (hlt : inp.txIndex.toNat < st.fees.length) :
    ∃ st', resolveInput db undoEnabled .none height st inp = .ok st' ∧
      RowsAdded height (resolved db seeded) [inp] st st' := by
  cases hcb : inp.isCoinbase with
  | true =>
      refine ⟨st, by rw [resolveInput, if_pos hcb], ?_⟩
      constructor <;> simp [spendRows, credits, booked, hcb]
  | false =>
      have hhere : (st.pending.lookup inp.key).or (db.value inp.key) = resolved db seeded inp := by
        rw [inv.pending, if_neg (hunseen hcb)]
        rfl
      cases hv : resolved db seeded inp with
      | some v =>
          obtain ⟨st', hstep, hspends, hfees, hmissing⟩ :=
            resolveInput_ok height inv.recent hcb hlt (hhere.trans hv)
          refine ⟨st', hstep, ?_, ?_, ?_⟩
          · simp [hspends, spendRows, hcb, hv]
          · simp [hfees, credits, booked, hcb, hv]
          · simp [hmissing, hcb, hv]
      | none =>
          refine ⟨_, resolveInput_missing height inv.recent hcb (hhere.trans hv), ?_, ?_, ?_⟩
          · simp [spendRows, hcb, hv]
          · simp [credits, booked, hcb, hv]
          · simp [hcb, hv]

/-- The loop over inputs that name distinct outpoints. -/
theorem resolveInputs_rows (height : UInt32) {seeded : UtxoMap} {seen : List Key}
    {reads : List (Key × UtxoValue)} {st : InputLoop} {inputs : List InputRow}
    (inv : DirectLoop db undoEnabled seeded seen reads st)
    (hnodup : (seen ++ spentKeys inputs).Nodup)
    (hrange : ∀ inp ∈ inputs, inp.txIndex.toNat < st.fees.length) :
    ∃ st', resolveInputs db undoEnabled .none height inputs st = .ok st' ∧
      RowsAdded height (resolved db seeded) inputs st st' := by
  induction inputs generalizing seen reads st with
  | nil => exact ⟨st, rfl, (List.append_nil _).symm, rfl, rfl⟩
  | cons inp inputs ih =>
      obtain ⟨hlt, hrange'⟩ := List.forall_mem_cons.mp hrange
      have hunseen : inp.isCoinbase = false → inp.key ∉ seen := by
        intro hcb hmem
        rw [spentKeys_cons_spend hcb, List.nodup_append] at hnodup
        exact hnodup.2.2 _ hmem _ List.mem_cons_self rfl
      obtain ⟨mid, hstep, hadded⟩ := resolveInput_rows height inv hunseen hlt
      obtain ⟨reads', inv'⟩ := inv.resolveInput hstep
      rw [spentKeys_cons, ← List.append_assoc] at hnodup
      have hlength : mid.fees.length = st.fees.length := by rw [hadded.fees, length_booked]
      obtain ⟨st', hloop, hrest⟩ := ih inv' hnodup (hlength ▸ hrange')
      refine ⟨st', ?_, hadded.cons hrest⟩
      rw [resolveInputs, hstep]
      exact hloop

/-- When each of the outpoints is pending or in the database, `value` says what each of
them holds. -/
theorem resolveInputs_ok (height : UInt32) {seeded : UtxoMap} {seen : List Key}
    {reads : List (Key × UtxoValue)} {st : InputLoop} {inputs : List InputRow}
    {value : Key → UtxoValue} (inv : DirectLoop db undoEnabled seeded seen reads st)
    (hnodup : (seen ++ spentKeys inputs).Nodup)
    (hrange : ∀ inp ∈ inputs, inp.txIndex.toNat < st.fees.length)
    (hvalue : ∀ k ∈ spentKeys inputs, (seeded.lookup k).or (db.value k) = some (value k)) :
    ∃ st', resolveInputs db undoEnabled .none height inputs st = .ok st' ∧
      st'.spends = st.spends ++ (inputs.filter fun inp => !inp.isCoinbase).map
        (fun inp => spendRow height inp (value inp.key)) ∧
      st'.fees = booked saturatingAdd st.fees ((inputs.filter fun inp => !inp.isCoinbase).map
        fun inp => (inp.txIndex.toNat, (value inp.key).valueSat)) ∧
      st'.missing = st.missing := by
  have hfound : ∀ inp ∈ inputs.filter fun inp => !inp.isCoinbase,
      resolved db seeded inp = some (value inp.key) :=
    fun inp hinp => hvalue inp.key (List.mem_map_of_mem hinp)
  obtain ⟨st', hloop, hspends, hfees, hmissing⟩ := resolveInputs_rows height inv hnodup hrange
  refine ⟨st', hloop, ?_, ?_, ?_⟩
  · rw [hspends, spendRows_of_found height hfound]
  · rw [hfees, credits_of_found hfound]
  · rw [hmissing, List.countP_eq_zero.mpr, Nat.add_zero]
    intro inp hinp
    simp [hfound inp hinp]

end Loop

/-! ## The block -/

section Block

variable {height : UInt32} {S : Key → Option UtxoValue} {txs : List LedgerTx}

theorem spentKeys_flatMap (height : UInt32) (txs : List LedgerTx) :
    spentKeys (txs.flatMap LedgerTx.inputs) =
      (txs.map (LedgerTx.effect height)).flatMap Ledger.Tx.spent := by
  induction txs with
  | nil => rfl
  | cons tx txs ih =>
      rw [List.flatMap_cons, spentKeys_append, ih]
      rfl

theorem seedPending_flatMap (height : UInt32) (txs : List LedgerTx) :
    seedPending height (txs.flatMap LedgerTx.outputs) =
      Ledger.created (txs.map (LedgerTx.effect height)) := by
  rw [seedPending, Ledger.created, List.map_flatMap, List.flatMap_map]
  rfl

/-- Where rows are tagged with the positions of their transactions, selecting a
position selects that transaction's rows. -/
theorem filter_flatMap_index {γ : Type} (rows : LedgerTx → List γ) (index : γ → Nat)
    (h : ∀ (i : Nat) (tx : LedgerTx), txs[i]? = some tx → ∀ r ∈ rows tx, index r = i)
    {i : Nat} {tx : LedgerTx} (hi : txs[i]? = some tx) :
    (txs.flatMap rows).filter (fun r => index r = i) = rows tx := by
  obtain ⟨hlt, htx⟩ := List.getElem?_eq_some_iff.mp hi
  have hsplit : txs = txs.take i ++ tx :: txs.drop (i + 1) := by
    rw [← htx, List.getElem_cons_drop, List.take_append_drop]
  have hbefore : ((txs.take i).flatMap rows).filter (fun r => index r = i) = [] := by
    rw [List.filter_eq_nil_iff]
    intro r hr
    obtain ⟨tx', htx', hr'⟩ := List.mem_flatMap.mp hr
    obtain ⟨j, hj⟩ := List.mem_iff_getElem?.mp htx'
    rw [List.getElem?_take] at hj
    split at hj
    · have := h j tx' hj r hr'
      simp only [decide_eq_true_eq]
      omega
    · contradiction
  have hafter : ((txs.drop (i + 1)).flatMap rows).filter (fun r => index r = i) = [] := by
    rw [List.filter_eq_nil_iff]
    intro r hr
    obtain ⟨tx', htx', hr'⟩ := List.mem_flatMap.mp hr
    obtain ⟨j, hj⟩ := List.mem_iff_getElem?.mp htx'
    rw [List.getElem?_drop] at hj
    have := h _ tx' hj r hr'
    simp only [decide_eq_true_eq]
    omega
  have hown : (rows tx).filter (fun r => index r = i) = rows tx := by
    rw [List.filter_eq_self]
    intro r hr
    simp [h i tx hi r hr]
  conv_lhs => rw [hsplit]
  rw [List.flatMap_append, List.flatMap_cons, List.filter_append, List.filter_append, hbefore,
    hafter, hown, List.nil_append, List.append_nil]

/-- What an outpoint holds when the block spends it: the block's own output, or
the entry of the ledger before the block. -/
def spentValue (height : UInt32) (S : Key → Option UtxoValue) (txs : List LedgerTx) (k : Key) :
    UtxoValue :=
  (((Ledger.created (txs.map (LedgerTx.effect height))).lookup k).or (S k)).getD
    ⟨0, 0, 0, zeroBytes 32⟩

/-- The value a transaction finds in the sequential ledger. -/
theorem ledgerAfter_spent {before after : List LedgerTx} {tx : LedgerTx} {k : Key}
    (valid : Ledger.Valid S ((before ++ tx :: after).map (LedgerTx.effect height)))
    (hk : k ∈ spentKeys tx.inputs) :
    ledgerAfter height S before k = some (spentValue height S (before ++ tx :: after) k) ∧
      ((Ledger.created ((before ++ tx :: after).map (LedgerTx.effect height))).lookup k).or
        (S k) = some (spentValue height S (before ++ tx :: after) k) := by
  have hsplit : (before ++ tx :: after).map (LedgerTx.effect height) =
      before.map (LedgerTx.effect height) ++
        tx.effect height :: after.map (LedgerTx.effect height) := by
    rw [List.map_append, List.map_cons]
  rw [hsplit] at valid
  obtain ⟨v, hbefore, hv⟩ := Ledger.applyAll_spent valid hk
  rw [← hsplit] at hv
  have hspent : spentValue height S (before ++ tx :: after) k = v := by
    rw [spentValue, hv, Option.getD_some]
  rw [hspent]
  exact ⟨hbefore, hv⟩

theorem mem_spentKeys_of_spending {tx : LedgerTx} {inp : InputRow} (h : inp ∈ tx.spending) :
    inp.key ∈ spentKeys tx.inputs := List.mem_map_of_mem h

/-- In order, the inputs of a valid block find exactly the spent values. -/
theorem resolvedInputs_eq (before after : List LedgerTx)
    (valid : Ledger.Valid S ((before ++ after).map (LedgerTx.effect height))) :
    resolvedInputs height (ledgerAfter height S before) after =
      (after.flatMap LedgerTx.spending).map fun inp =>
        (inp, some (spentValue height S (before ++ after) inp.key)) := by
  induction after generalizing before with
  | nil => rfl
  | cons tx after ih =>
      have hassoc : before ++ tx :: after = before ++ [tx] ++ after := by simp
      have hnext : Ledger.apply (ledgerAfter height S before) (tx.effect height) =
          ledgerAfter height S (before ++ [tx]) := by
        rw [ledgerAfter, ledgerAfter, List.map_append, List.map_singleton, Ledger.applyAll_snoc]
      rw [resolvedInputs, List.flatMap_cons, List.map_append, hnext]
      rw [hassoc] at valid ⊢
      rw [ih (before ++ [tx]) valid]
      congr 1
      apply List.map_congr_left
      intro inp hinp
      rw [List.append_assoc, List.singleton_append] at valid ⊢
      rw [(ledgerAfter_spent valid (mem_spentKeys_of_spending hinp)).1]

theorem flatMap_spending (txs : List LedgerTx) :
    txs.flatMap LedgerTx.spending =
      (txs.flatMap LedgerTx.inputs).filter fun inp => !inp.isCoinbase := by
  induction txs with
  | nil => rfl
  | cons tx txs ih =>
      rw [List.flatMap_cons, List.flatMap_cons, List.filter_append, ih]
      rfl

/-! ## Refinement -/

/-- What the caller and the database get from a block that refines the ledger. -/
structure RefinesLedger (height : UInt32) (S : Key → Option UtxoValue) (txs : List LedgerTx)
    (answer : List SpendRow × List UInt64 × Nat) (db : Db) : Prop where
  utxo : ∀ k, db.utxo k = (ledgerAfter height S txs k).map UtxoValue.encode
  missing : answer.2.2 = 0
  spends : List.Forall₂ (fun e row => ∃ v, e.2 = some v ∧ row = spendRow height e.1 v)
    (resolvedInputs height S txs) answer.1
  fees_length : answer.2.1.length = txs.length
  fees_spending : ∀ (i : Nat) (tx : LedgerTx), txs[i]? = some tx → tx.isCoinbase = false →
    ∃ fee, answer.2.1[i]? = some fee ∧
      fee.toNat + tx.outputTotal = tx.inputTotal (ledgerAfter height S (txs.take i))
  fees_coinbase : ∀ (i : Nat) (tx : LedgerTx), txs[i]? = some tx → tx.isCoinbase = true →
    answer.2.1[i]? = some 0

/-- The fee of one transaction after both passes. -/
theorem fee_booked (valid : ValidBlock height S txs) {i : Nat} {tx : LedgerTx}
    (hi : txs[i]? = some tx) :
    ∃ fee, (booked saturatingSub
        (booked saturatingAdd (List.replicate txs.length 0)
          ((txs.flatMap LedgerTx.spending).map fun inp =>
            (inp.txIndex.toNat, (spentValue height S txs inp.key).valueSat)))
        ((txs.flatMap LedgerTx.outputs).map fun out =>
          (out.txIndex.toNat, out.valueSat)))[i]? = some fee ∧
      fee.toNat = min (tx.inputTotal (ledgerAfter height S (txs.take i))) (2 ^ 64 - 1) -
        tx.outputTotal := by
  obtain ⟨hlt, htx⟩ := List.getElem?_eq_some_iff.mp hi
  have hsplit : txs.take i ++ tx :: txs.drop (i + 1) = txs := by
    rw [← htx, List.getElem_cons_drop, List.take_append_drop]
  have hins : (txs.flatMap LedgerTx.spending).filter (fun inp => inp.txIndex.toNat = i) =
      tx.spending := by
    apply filter_flatMap_index LedgerTx.spending (fun inp => inp.txIndex.toNat) _ hi
    intro j tx' hj inp hinp
    exact (valid.indexed j tx' hj).1 inp (List.mem_filter.mp hinp).1
  have houts : (txs.flatMap LedgerTx.outputs).filter (fun out => out.txIndex.toNat = i) =
      tx.outputs := by
    apply filter_flatMap_index LedgerTx.outputs (fun out => out.txIndex.toNat) _ hi
    intro j tx' hj out hout
    exact (valid.indexed j tx' hj).2 out hout
  -- The sequential ledger gives the inputs the values the code books.
  have htotal : (tx.spending.map fun inp =>
      (spentValue height S txs inp.key).valueSat.toNat).sum =
        tx.inputTotal (ledgerAfter height S (txs.take i)) := by
    rw [LedgerTx.inputTotal]
    congr 1
    apply List.map_congr_left
    intro inp hinp
    have hledger := valid.ledger
    rw [← hsplit] at hledger
    have hspent := (ledgerAfter_spent hledger (mem_spentKeys_of_spending hinp)).1
    rw [hsplit] at hspent
    rw [hspent, Option.map_some, Option.getD_some]
  rw [getElem?_booked, getElem?_booked, List.getElem?_replicate, if_pos hlt]
  refine ⟨_, rfl, ?_⟩
  rw [toNat_foldl_saturatingSub, toNat_foldl_saturatingAdd]
  simp only [List.filter_map, List.map_map, Function.comp_def, hins, houts, htotal,
    LedgerTx.outputTotal, UInt64.toNat_zero, Nat.zero_add]

theorem inputTotal_of_isCoinbase {tx : LedgerTx} (h : tx.isCoinbase = true)
    (S : Key → Option UtxoValue) : tx.inputTotal S = 0 := by
  have hnone : tx.spending = [] := by
    rw [LedgerTx.spending, List.filter_eq_nil_iff]
    intro inp hinp
    simp [List.all_eq_true.mp h inp hinp]
  simp [LedgerTx.inputTotal, hnone]

theorem value_of_utxo {db : Db} (hdb : ∀ k, db.utxo k = (S k).map UtxoValue.encode) (k : Key) :
    db.value k = S k := by
  rw [Db.value, hdb k]
  cases S k <;> simp

/-- The table after the batch is the closed form of the sequential ledger. -/
theorem DirectLoop.utxo_refines {db : Db} {undoEnabled : Bool}
    {reads : List (Key × UtxoValue)} {st : InputLoop}
    (inv : DirectLoop db undoEnabled (seedPending height (txs.flatMap LedgerTx.outputs))
      (spentKeys (txs.flatMap LedgerTx.inputs)) reads st)
    (order : IterOrder Key UtxoValue) (hdb : ∀ k, db.utxo k = (S k).map UtxoValue.encode)
    (valid : Ledger.Valid S (txs.map (LedgerTx.effect height))) (k : Key) :
    (db.write (blockBatch order undoEnabled height (txs.flatMap LedgerTx.outputs) st)).utxo k =
      (ledgerAfter height S txs k).map UtxoValue.encode := by
  have hvalue : db.value k = S k := value_of_utxo hdb k
  rw [inv.utxo_after, ledgerAfter, Ledger.applyAll_eq valid, ← spentKeys_flatMap,
    ← seedPending_flatMap, hdb k]
  by_cases hspent : k ∈ spentKeys (txs.flatMap LedgerTx.inputs)
  · rw [if_pos hspent, if_pos hspent, Option.map_none, Option.none_or]
    cases hS : S k with
    | none => simp
    | some v =>
        -- Not created by the block, so it was read from the database and deleted.
        have hfresh : k ∉ (txs.map (LedgerTx.effect height)).flatMap Ledger.Tx.outpoints := by
          intro hmem
          rw [valid.fresh k hmem] at hS
          contradiction
        have hseeded : (seedPending height (txs.flatMap LedgerTx.outputs)).lookup k = none := by
          rw [seedPending_flatMap]
          exact Ledger.lookup_created_of_notMem hfresh
        rw [if_pos (inv.seen_reads k hspent hseeded (by simp [hvalue, hS]))]
  · have hunread : k ∉ reads.map Prod.fst := fun h => hspent (inv.reads_seen k h)
    rw [if_neg hspent, if_neg hspent, if_neg hunread, ← Option.map_or]

namespace ValidBlock

variable (valid : ValidBlock height S txs)

include valid

theorem spentKeys_nodup : (spentKeys (txs.flatMap LedgerTx.inputs)).Nodup := by
  rw [spentKeys_flatMap height]
  exact valid.ledger.spent_nodup

theorem inputs_txIndex_lt : ∀ inp ∈ txs.flatMap LedgerTx.inputs, inp.txIndex.toNat < txs.length := by
  intro inp hinp
  obtain ⟨tx, htx, hinp⟩ := List.mem_flatMap.mp hinp
  obtain ⟨i, hi⟩ := List.mem_iff_getElem?.mp htx
  rw [(valid.indexed i tx hi).1 inp hinp]
  exact (List.getElem?_eq_some_iff.mp hi).1

theorem outputs_txIndex_lt : ∀ out ∈ txs.flatMap LedgerTx.outputs, out.txIndex.toNat < txs.length := by
  intro out hout
  obtain ⟨tx, htx, hout⟩ := List.mem_flatMap.mp hout
  obtain ⟨i, hi⟩ := List.mem_iff_getElem?.mp htx
  rw [(valid.indexed i tx hi).2 out hout]
  exact (List.getElem?_eq_some_iff.mp hi).1

/-- What the block spends is created by it or stands in the ledger. -/
theorem seeded_or_eq {k : Key} (hk : k ∈ spentKeys (txs.flatMap LedgerTx.inputs)) :
    ((seedPending height (txs.flatMap LedgerTx.outputs)).lookup k).or (S k) =
      some (spentValue height S txs k) := by
  rw [spentKeys_flatMap height] at hk
  obtain ⟨e, he, hkey⟩ := List.mem_flatMap.mp hk
  obtain ⟨tx, htx, rfl⟩ := List.mem_map.mp he
  obtain ⟨before, after, rfl⟩ := List.append_of_mem htx
  rw [seedPending_flatMap]
  exact (ledgerAfter_spent valid.ledger hkey).2

end ValidBlock

/-- The refinement for a store without a cache. -/
theorem applyBlock_refines_plain {s : UtxoStore} (order : IterOrder Key UtxoValue)
    (hrecent : s.recent = none) (hdb : ∀ k, s.db.utxo k = (S k).map UtxoValue.encode)
    (valid : ValidBlock height S txs) :
    ∃ res s', s.applyBlock order .none height (txs.map LedgerTx.row)
        (txs.flatMap LedgerTx.inputs) (txs.flatMap LedgerTx.outputs) = (.ok res, s') ∧
      RefinesLedger height S txs res.observed s'.db := by
  have hlen : (initialLoop none height (txs.map LedgerTx.row)
      (txs.flatMap LedgerTx.outputs)).fees.length = txs.length := by
    simp [initialLoop]
  have hvalue : ∀ k ∈ spentKeys (txs.flatMap LedgerTx.inputs),
      ((seedPending height (txs.flatMap LedgerTx.outputs)).lookup k).or (s.db.value k) =
        some (spentValue height S txs k) := by
    intro k hk
    rw [value_of_utxo hdb]
    exact valid.seeded_or_eq hk
  -- The loop runs through, and its pending map and reads are those of `DirectLoop`.
  have hinitial := DirectLoop.initial s.db s.undoEnabled height (txs.map LedgerTx.row)
    (txs.flatMap LedgerTx.outputs)
  obtain ⟨st, hloop, hspends, hfees, hmissing⟩ :=
    resolveInputs_ok height hinitial (by simpa using valid.spentKeys_nodup)
      (by rw [hlen]; exact valid.inputs_txIndex_lt) hvalue
  obtain ⟨reads, inv⟩ := hinitial.resolveInputs hloop
  rw [List.nil_append] at inv
  rw [← flatMap_spending] at hspends hfees
  have hrangeFees : ∀ out ∈ txs.flatMap LedgerTx.outputs,
      out.txIndex.toNat < st.fees.length := by
    rw [hfees, length_booked, hlen]
    exact valid.outputs_txIndex_lt
  have hsub := subtractOutputs_eq hrangeFees
  obtain ⟨res, hcall, hresSpends, hresFees, hresMissing⟩ :=
    applyBlock_of_loop order hrecent hloop inv.recent hsub
  have hinit : (initialLoop none height (txs.map LedgerTx.row)
      (txs.flatMap LedgerTx.outputs)).fees = List.replicate txs.length 0 := by
    simp [initialLoop]
  rw [hfees, hinit] at hresFees
  refine ⟨res, _, hcall, ?_⟩
  constructor
  case utxo =>
    intro k
    exact inv.utxo_refines order hdb valid.ledger k
  case missing => exact hresMissing.trans hmissing
  case spends =>
    change List.Forall₂ _ _ res.spends
    have hresolved : resolvedInputs height S txs = _ :=
      resolvedInputs_eq [] txs valid.ledger
    rw [hresolved, hresSpends, hspends]
    change List.Forall₂ _ _ ([] ++ _)
    simp only [List.nil_append]
    rw [List.forall₂_map_left_iff, List.forall₂_map_right_iff, List.forall₂_same]
    exact fun inp _ => ⟨_, rfl, rfl⟩
  case fees_length =>
    change res.fees.length = _
    rw [hresFees, length_booked, length_booked, List.length_replicate]
  case fees_spending =>
    intro i tx hi hcb
    obtain ⟨fee, hfee, htotal⟩ := fee_booked valid hi
    obtain ⟨hle, hlt⟩ := valid.totals i tx hi hcb
    refine ⟨fee, ?_, by omega⟩
    change res.fees[i]? = _
    rw [hresFees]
    exact hfee
  case fees_coinbase =>
    intro i tx hi hcb
    obtain ⟨fee, hfee, htotal⟩ := fee_booked valid hi
    rw [inputTotal_of_isCoinbase hcb, Nat.zero_min, Nat.zero_sub] at htotal
    obtain rfl : fee = 0 := UInt64.toNat_inj.mp htotal
    change res.fees[i]? = _
    rw [hresFees]
    exact hfee

end Block

/-! ## Every mode -/

/-- The stores `apply_block` is called on: opened in bulk, live or cached mode
over any database, and what earlier calls made of them. -/
inductive Opened : UtxoStore → Prop
  | bulk (db : Db) : Opened (.openBulk db)
  | live (db : Db) : Opened (.openLive db)
  | cached (db : Db) (cacheBytes : Nat) : Opened (.openCached db cacheBytes)
  | applied {s s' : UtxoStore} {order : IterOrder Key UtxoValue} {height : UInt32}
      {txs : List TxRow} {inputs : List InputRow} {outputs : List OutputRow} {res : SpendResult}
      (opened : Opened s)
      (h : s.applyBlock order .none height txs inputs outputs = (.ok res, s')) : Opened s'

/-- Such a store has no cache, or a plain twin over the same database. -/
theorem Opened.twin {s : UtxoStore} (h : Opened s) :
    s.recent = none ∨ CachedTwin s (.openBulk s.db) := by
  induction h with
  | bulk db => exact .inl rfl
  | live db => exact .inl rfl
  | cached db cacheBytes => exact .inr (cachedTwin_open db cacheBytes)
  | @applied s s' order height txs inputs outputs res _ hcall ih =>
      rcases ih with hrecent | twin
      · obtain ⟨st, reads, -, -, -, -, -, rfl⟩ := applyBlock_direct hrecent hcall
        exact .inl hrecent
      · exact .inr (twin.applied hcall).1

/-- `apply_block` refines the sequential ledger, in every mode: on a block that is
valid in order it returns, the table is the ledger's, no input is missing, the
spend rows are the outputs the ledger finds and the fees are the ledger's. -/
theorem applyBlock_refines_ledger (order : IterOrder Key UtxoValue) (s : UtxoStore)
    (hs : Opened s) (S : Key → Option UtxoValue)
    (hdb : ∀ k, s.db.utxo k = (S k).map UtxoValue.encode) (height : UInt32)
    (txs : List LedgerTx) (valid : ValidBlock height S txs) :
    ∃ res s', s.applyBlock order .none height (txs.map LedgerTx.row)
        (txs.flatMap LedgerTx.inputs) (txs.flatMap LedgerTx.outputs) = (.ok res, s') ∧
      RefinesLedger height S txs res.observed s'.db := by
  rcases hs.twin with hrecent | twin
  · exact applyBlock_refines_plain order hrecent hdb valid
  · -- The plain twin refines the ledger, and the caller cannot tell the two apart.
    have hplain : (UtxoStore.openBulk s.db).recent = none := rfl
    obtain ⟨res, t', hcall, hrefines⟩ := applyBlock_refines_plain order hplain hdb valid
    rcases applyBlock_twin twin order order height (txs.map LedgerTx.row)
      (txs.flatMap LedgerTx.inputs) (txs.flatMap LedgerTx.outputs) with
      ⟨res₁, res₂, s₁, t₁, hs₁, ht₁, hres, htwin⟩ | ⟨s₁, t₁, -, ht₁, -⟩
    · rw [hcall] at ht₁
      cases ht₁
      refine ⟨res₁, s₁, hs₁, ?_⟩
      rw [hres, htwin.db]
      exact hrefines
    · rw [hcall] at ht₁
      cases ht₁

/-- A coinbase, a spend of the database and a spend of that spend. -/
def sampleLedgerBlock : List LedgerTx :=
  [⟨sampleTx 0 2, [{ sampleSpend 0 0 with isCoinbase := true }], [sampleOutput 0 2 50]⟩,
    ⟨sampleTx 1 3, [sampleSpend 1 1], [sampleOutput 1 3 4]⟩,
    ⟨sampleTx 2 4, [sampleSpend 2 3], [sampleOutput 2 4 1]⟩]

theorem sampleLedgerBlock_valid : ValidBlock 7 sampleLedger sampleLedgerBlock := by
  constructor
  case indexed =>
    intro i tx hi
    rcases i with _ | _ | _ | i
    · obtain rfl := Option.some.inj hi
      decide +kernel
    · obtain rfl := Option.some.inj hi
      decide +kernel
    · obtain rfl := Option.some.inj hi
      decide +kernel
    · simp [sampleLedgerBlock] at hi
  case ledger =>
    constructor
    case known =>
      intro i tx hi
      rcases i with _ | _ | _ | i
      · obtain rfl := Option.some.inj hi
        decide +kernel
      · obtain rfl := Option.some.inj hi
        decide +kernel
      · obtain rfl := Option.some.inj hi
        decide +kernel
      · simp [sampleLedgerBlock] at hi
    case spent_nodup => decide +kernel
    case created_nodup => decide +kernel
    case fresh => decide +kernel
  case totals =>
    intro i tx hi _
    rcases i with _ | _ | _ | i
    · obtain rfl := Option.some.inj hi
      contradiction
    · obtain rfl := Option.some.inj hi
      decide +kernel
    · obtain rfl := Option.some.inj hi
      decide +kernel
    · simp [sampleLedgerBlock] at hi

theorem applyBlock_refines_ledger_sample :
    ValidBlock 7 sampleLedger sampleLedgerBlock ∧
      ∃ res s', (UtxoStore.openCached sampleDb 224).applyBlock (.stored _ _) .none 7
          (sampleLedgerBlock.map LedgerTx.row) (sampleLedgerBlock.flatMap LedgerTx.inputs)
          (sampleLedgerBlock.flatMap LedgerTx.outputs) = (.ok res, s') ∧
        RefinesLedger 7 sampleLedger sampleLedgerBlock res.observed s'.db :=
  ⟨sampleLedgerBlock_valid,
    applyBlock_refines_ledger (.stored _ _) (.openCached sampleDb 224) (.cached sampleDb 224)
      sampleLedger (fun _ => rfl) 7 sampleLedgerBlock sampleLedgerBlock_valid⟩

end Bidx
