import Bidx.Store.Accounting
import Bidx.Store.CacheInvisible

/-!
# One spend row for each output

The pending map and the cache give an output up the moment it is spent.  The database
gives it up when the block's batch is written, so until then every input of the block
that names it finds it again.  What follows is which blocks this does not matter for: the
ones that name no stored outpoint twice, and name none that they create over a stored one.
In runs of such blocks every output has at most one spend row.
-/

namespace Bidx

open KeyValue

/-- The outpoint a spend row is about. -/
def SpendRow.key (row : SpendRow) : Key := makeKey row.spentTxid row.spentVout

/-- A store without entries. -/
def Db.empty : Db := ⟨fun _ => none, fun _ => none, none⟩

/-- How a store is opened. -/
inductive StoreMode where
  | bulk
  | cached (cacheBytes : Nat)
  | live

def StoreMode.openStore (db : Db) : StoreMode → UtxoStore
  | .bulk => .openBulk db
  | .cached cacheBytes => .openCached db cacheBytes
  | .live => .openLive db

/-- A call that got through, with the database it found. -/
structure AppliedCall where
  before : Db
  call : ApplyCall
  res : SpendResult

/-- The calls of a run; the first one that fails ends it. -/
def appliedCalls (orders : Nat → IterOrder Key UtxoValue) :
    UtxoStore → List ApplyCall → List AppliedCall
  | _, [] => []
  | s, call :: calls =>
      match s.applyBlock (orders calls.length) .none call.height call.txs call.inputs
          call.outputs with
      | (.ok res, s') => ⟨s.db, call, res⟩ :: appliedCalls orders s' calls
      | (.error _, _) => []

namespace AppliedCall

/-- How many spend rows of the call are about an outpoint. -/
def rowsAt (e : AppliedCall) (k : Key) : Nat := e.res.spends.countP fun row => row.key = k

/-- The call creates the outpoint. -/
def Creates (e : AppliedCall) (k : Key) : Prop := k ∈ createdKeys e.call.outputs

instance (e : AppliedCall) (k : Key) : Decidable (e.Creates k) :=
  inferInstanceAs (Decidable (_ ∈ _))

/-- The block names a stored outpoint at most once, and none that it creates over it. -/
def NamesOnce (e : AppliedCall) : Prop :=
  ∀ k ∈ spentKeys e.call.inputs, e.before.value k ≠ none →
    (spentKeys e.call.inputs).count k ≤ 1 ∧ ¬e.Creates k

instance (e : AppliedCall) : Decidable e.NamesOnce :=
  inferInstanceAs (Decidable (∀ k ∈ spentKeys e.call.inputs, _ → _ ∧ _))

/-- Every input has a spend row or is missing. -/
structure Counted (e : AppliedCall) : Prop where
  resolved : e.res.spends.length + e.res.missing = (spendingInputs e.call.inputs).length
  rows : ∃ hits, hits.Sublist (spendingInputs e.call.inputs) ∧
    List.Forall₂ (RowOf e.call.height) e.res.spends hits

end AppliedCall

/-- From one creation of an outpoint to the next there is at most one spend row about it,
and none before the first.  `unspent` says that the last creation has no row yet. -/
def SpentOnce (k : Key) : Bool → List AppliedCall → Prop
  | _, [] => True
  | unspent, e :: run =>
      e.rowsAt k ≤ (unspent || decide (e.Creates k)).toNat ∧
        SpentOnce k ((unspent || decide (e.Creates k)) && decide (e.rowsAt k = 0)) run

instance SpentOnce.decidable (k : Key) : (unspent : Bool) → (run : List AppliedCall) →
    Decidable (SpentOnce k unspent run)
  | _, [] => .isTrue trivial
  | _, _ :: run => @instDecidableAnd _ _ inferInstance (SpentOnce.decidable k _ run)

/-! ## The rows of one block -/

/-- How many of `named` inputs that name one outpoint get a row. -/
def rowsOf (stored created : Bool) (named : Nat) : Nat :=
  if stored then named else if created then min named 1 else 0

section Rows

variable {db : Db} {undoEnabled : Bool} {height : UInt32} {inp : InputRow} {st st' : InputLoop}

theorem countP_spendRow (rows : List SpendRow) (inp : InputRow) (v : UtxoValue) (k : Key) :
    (rows ++ [spendRow height inp v]).countP (fun row => row.key = k) =
      rows.countP (fun row => row.key = k) + if inp.key = k then 1 else 0 := by
  rw [List.countP_append, List.countP_singleton]
  have hkey : (spendRow height inp v).key = inp.key := rfl
  rw [hkey]
  by_cases hk : inp.key = k <;> simp [hk]

theorem count_spentKeys_spend (hcb : inp.isCoinbase = false) (k : Key) :
    (spentKeys [inp]).count k = if inp.key = k then 1 else 0 := by
  rw [spentKeys_cons_spend hcb, spentKeys_nil, List.count_singleton]
  by_cases hk : inp.key = k <;> simp [hk]

/-- One round turns an input to come into a row, or into none, as `rowsOf` says. -/
theorem countP_resolveInput (hrecent : st.recent = none)
    (h : resolveInput db undoEnabled .none height st inp = .ok st') (k : Key) (later : Nat) :
    st'.recent = none ∧
      st'.spends.countP (fun row => row.key = k) +
          rowsOf (db.value k).isSome (st'.pending.lookup k).isSome later =
        st.spends.countP (fun row => row.key = k) +
          rowsOf (db.value k).isSome (st.pending.lookup k).isSome
            ((spentKeys [inp]).count k + later) := by
  rcases resolveInput_cases hrecent h with ⟨hcb, rfl⟩ | ⟨hcb, v, hpend, -, rfl⟩ |
    ⟨hcb, hpend, v, hval, -, rfl⟩ | ⟨hcb, hpend, hval, rfl⟩
  · rw [spentKeys_cons_coinbase hcb, spentKeys_nil, List.count_nil, Nat.zero_add]
    exact ⟨hrecent, rfl⟩
  · refine ⟨hrecent, ?_⟩
    rw [countP_spendRow, count_spentKeys_spend hcb]
    by_cases hk : inp.key = k
    · -- The pending output is gone; a stored one would answer the next input.
      subst hk
      rw [if_pos rfl, AList.lookup_erase, hpend]
      cases (db.value inp.key).isSome with
      | true =>
          simp only [rowsOf, if_true]
          omega
      | false => simp [rowsOf]
    · rw [if_neg hk, AList.lookup_erase_ne (Ne.symm hk), Nat.add_zero, Nat.zero_add]
  · refine ⟨hrecent, ?_⟩
    rw [countP_spendRow, count_spentKeys_spend hcb]
    by_cases hk : inp.key = k
    · subst hk
      rw [if_pos rfl, hval]
      simp [rowsOf]
      omega
    · rw [if_neg hk, Nat.add_zero, Nat.zero_add]
  · refine ⟨hrecent, ?_⟩
    rw [count_spentKeys_spend hcb]
    by_cases hk : inp.key = k
    · subst hk
      rw [hval, hpend]
      simp [rowsOf]
    · rw [if_neg hk, Nat.zero_add]

/-- The rows about `k` after the loop. -/
theorem countP_resolveInputs {inputs : List InputRow} (hrecent : st.recent = none)
    (h : resolveInputs db undoEnabled .none height inputs st = .ok st') (k : Key) :
    st'.spends.countP (fun row => row.key = k) = st.spends.countP (fun row => row.key = k) +
      rowsOf (db.value k).isSome (st.pending.lookup k).isSome ((spentKeys inputs).count k) := by
  induction inputs generalizing st with
  | nil =>
      obtain rfl := Except.ok.inj h
      simp [rowsOf]
  | cons inp inputs ih =>
      obtain ⟨st₁, hstep, hrest⟩ := resolveInputs_cons_eq_ok.mp h
      obtain ⟨hrecent₁, hcount⟩ :=
        countP_resolveInput hrecent hstep k ((spentKeys inputs).count k)
      rw [ih hrecent₁ hrest, hcount, spentKeys_cons inp inputs, List.count_append]

end Rows

/-! ## The call -/

section Call

variable {order : IterOrder Key UtxoValue} {s s' : UtxoStore} {height : UInt32}
  {txs : List TxRow} {inputs : List InputRow} {outputs : List OutputRow} {res : SpendResult}

theorem applyBlock_counted {call : ApplyCall}
    (h : s.applyBlock order .none call.height call.txs call.inputs call.outputs = (.ok res, s')) :
    AppliedCall.Counted ⟨s.db, call, res⟩ := by
  obtain ⟨st, fees, hloop, -, -, rfl, -⟩ := applyBlock_eq_ok h
  have hbooks := (accounted_initial s.recent call.height call.txs call.outputs).resolveInputs hloop
  exact ⟨hbooks.resolved, hbooks.rows⟩

/-- What a block does to one outpoint of a store: the rows about it, and whether the
database holds it afterwards. -/
structure SpendsAt (db db' : Db) (inputs : List InputRow) (outputs : List OutputRow)
    (res : SpendResult) (k : Key) : Prop where
  rows : res.spends.countP (fun row => row.key = k) =
    rowsOf (db.value k).isSome (decide (k ∈ createdKeys outputs)) ((spentKeys inputs).count k)
  unnamed : k ∉ spentKeys inputs → db'.value k ≠ none →
    k ∈ createdKeys outputs ∨ db.value k ≠ none
  named : k ∈ spentKeys inputs → db'.value k ≠ none → db.value k ≠ none ∧ k ∈ createdKeys outputs

theorem applyBlock_spendsAt_plain (hrecent : s.recent = none)
    (h : s.applyBlock order .none height txs inputs outputs = (.ok res, s')) (k : Key) :
    SpendsAt s.db s'.db inputs outputs res k := by
  obtain ⟨st, reads, hloop, inv, hspends, -, -, rfl⟩ := applyBlock_direct hrecent h
  have hcreated : ((seedPending height outputs).lookup k).isSome =
      decide (k ∈ createdKeys outputs) := by
    rw [Bool.eq_iff_iff, decide_eq_true_eq, Option.isSome_iff_ne_none, ne_eq,
      lookup_seedPending_eq_none, not_not]
  constructor
  case rows =>
    rw [hspends, countP_resolveInputs rfl hloop k]
    show 0 + rowsOf _ ((seedPending height outputs).lookup k).isSome _ = _
    rw [hcreated, Nat.zero_add]
  case unnamed =>
    intro hunnamed hafter
    by_contra hneither
    rw [not_or, not_not, ← lookup_seedPending_eq_none] at hneither
    apply hafter
    rw [Db.value, inv.utxo_after, if_neg hunnamed, hneither.1, Option.map_none, Option.none_or]
    split
    · rfl
    · exact hneither.2
  case named =>
    intro hnamed hafter
    rw [Db.value, inv.utxo_after, if_pos hnamed, Option.map_none, Option.none_or] at hafter
    split at hafter
    · exact absurd rfl hafter
    · rename_i hunread
      refine ⟨hafter, ?_⟩
      by_contra hnot
      exact hunread (inv.seen_reads k hnamed (lookup_seedPending_eq_none.mpr hnot) hafter)

/-- A store without a cache, or one whose cache cannot be seen. -/
def Transparent (s : UtxoStore) : Prop := s.recent = none ∨ CachedTwin s (.openBulk s.db)

theorem transparent_openStore (db : Db) (mode : StoreMode) : Transparent (mode.openStore db) := by
  cases mode with
  | bulk => exact .inl rfl
  | cached cacheBytes => exact .inr (cachedTwin_open db cacheBytes)
  | live => exact .inl rfl

theorem applyBlock_spendsAt (hs : Transparent s)
    (h : s.applyBlock order .none height txs inputs outputs = (.ok res, s')) :
    Transparent s' ∧ ∀ k, SpendsAt s.db s'.db inputs outputs res k := by
  rcases hs with hrecent | twin
  · refine ⟨.inl ?_, applyBlock_spendsAt_plain hrecent h⟩
    obtain ⟨st, reads, -, -, -, -, -, rfl⟩ := applyBlock_direct hrecent h
    exact hrecent
  · -- The plain twin gives the same rows and leaves the same database.
    obtain ⟨htwin, res', t', hplain, hres, hdb⟩ := twin.applied h
    refine ⟨.inr htwin, fun k => ?_⟩
    have hat := applyBlock_spendsAt_plain rfl hplain k
    have hspends : res.spends = res'.spends := congrArg Prod.fst hres
    rw [hdb]
    exact ⟨by rw [hspends]; exact hat.rows, hat.unnamed, hat.named⟩

end Call

/-! ## Runs -/

theorem mem_appliedCalls {orders : Nat → IterOrder Key UtxoValue} {s : UtxoStore}
    {calls : List ApplyCall} : ∀ e ∈ appliedCalls orders s calls, e.Counted := by
  induction calls generalizing s with
  | nil => exact fun e he => absurd he List.not_mem_nil
  | cons call calls ih =>
      rw [appliedCalls]
      split
      · rename_i hcall
        intro e he
        rcases List.mem_cons.mp he with rfl | hrest
        · exact applyBlock_counted hcall
        · exact ih e hrest
      · exact fun e he => absurd he List.not_mem_nil

/-- One block keeps "what the database holds has no row yet". -/
theorem SpendsAt.once {e : AppliedCall} {db' : Db} {k : Key} {unspent : Bool}
    (h : SpendsAt e.before db' e.call.inputs e.call.outputs e.res k) (honce : e.NamesOnce)
    (hinv : e.before.value k ≠ none → unspent = true) :
    e.rowsAt k ≤ (unspent || decide (e.Creates k)).toNat ∧
      (db'.value k ≠ none →
        ((unspent || decide (e.Creates k)) && decide (e.rowsAt k = 0)) = true) := by
  have hrows : e.rowsAt k = rowsOf (e.before.value k).isSome (decide (e.Creates k))
      ((spentKeys e.call.inputs).count k) := h.rows
  by_cases hnamed : k ∈ spentKeys e.call.inputs
  · constructor
    · cases hstored : e.before.value k with
      | some v =>
          obtain ⟨hcount, hnot⟩ := honce k hnamed (by simp [hstored])
          rw [hrows, hinv (by simp [hstored]), hstored]
          exact hcount
      | none =>
          rw [hrows, hstored]
          cases decide (e.Creates k) <;> simp [rowsOf]
    · intro hafter
      obtain ⟨hstored, hcreated⟩ := h.named hnamed hafter
      exact absurd hcreated (honce k hnamed hstored).2
  · have hzero : e.rowsAt k = 0 := by
      rw [hrows, List.count_eq_zero_of_not_mem hnamed]
      simp [rowsOf]
    refine ⟨by rw [hzero]; exact Nat.zero_le _, fun hafter => ?_⟩
    rw [hzero]
    rcases h.unnamed hnamed hafter with hcreated | hstored
    · simp [show e.Creates k from hcreated]
    · simp [hinv hstored]

/-- The run: by induction over the calls, from any store. -/
theorem spentOnce_appliedCalls {orders : Nat → IterOrder Key UtxoValue} {s : UtxoStore}
    {calls : List ApplyCall} {k : Key} {unspent : Bool} (hs : Transparent s)
    (hinv : s.db.value k ≠ none → unspent = true)
    (honce : ∀ e ∈ appliedCalls orders s calls, e.NamesOnce) :
    SpentOnce k unspent (appliedCalls orders s calls) := by
  induction calls generalizing s unspent with
  | nil => trivial
  | cons call calls ih =>
      rw [appliedCalls] at honce ⊢
      split at honce
      · rename_i res s' hcall
        obtain ⟨hs', hat⟩ := applyBlock_spendsAt hs hcall
        obtain ⟨hrows, hnext⟩ :=
          SpendsAt.once (e := ⟨s.db, call, res⟩) (hat k) (honce _ List.mem_cons_self) hinv
        exact ⟨hrows, ih hs' hnext fun e he => honce e (List.mem_cons_of_mem _ he)⟩
      · trivial

/-- In every run from an empty store, in every mode, each output has at most one spend row
and every other input that names it is missing, provided that no block of the run names a
stored outpoint twice or creates one it names over a stored one. -/
theorem applyCalls_spend_once (mode : StoreMode) (orders : Nat → IterOrder Key UtxoValue)
    (calls : List ApplyCall)
    (honce : ∀ e ∈ appliedCalls orders (mode.openStore .empty) calls, e.NamesOnce) :
    (∀ k, SpentOnce k false (appliedCalls orders (mode.openStore .empty) calls)) ∧
      ∀ e ∈ appliedCalls orders (mode.openStore .empty) calls, e.Counted := by
  refine ⟨fun k => ?_, mem_appliedCalls⟩
  refine spentOnce_appliedCalls (transparent_openStore .empty mode) ?_ honce
  intro hstored
  cases mode <;> exact absurd rfl hstored

/-- A block that creates output 0 of transaction 1, and one that spends it and names an
outpoint nobody created. -/
def sampleSingleSpend : List ApplyCall :=
  [⟨1, [sampleTx 0 1], [], [sampleOutput 0 1 5]⟩,
    ⟨2, [sampleTx 0 2], [sampleSpend 0 1, sampleSpend 0 9], []⟩]

theorem applyCalls_spend_once_sample :
    (∀ e ∈ appliedCalls (fun _ => .stored _ _) ((StoreMode.cached 224).openStore .empty)
        sampleSingleSpend, e.NamesOnce) ∧
      ((∀ k, SpentOnce k false (appliedCalls (fun _ => .stored _ _)
          ((StoreMode.cached 224).openStore .empty) sampleSingleSpend)) ∧
        ∀ e ∈ appliedCalls (fun _ => .stored _ _) ((StoreMode.cached 224).openStore .empty)
          sampleSingleSpend, e.Counted) :=
  ⟨by decide +kernel,
    applyCalls_spend_once (.cached 224) (fun _ => .stored _ _) sampleSingleSpend
      (by decide +kernel)⟩

/-- The second block of a run spends one output twice. -/
def sampleDoubleSpend : List ApplyCall :=
  [⟨1, [sampleTx 0 1], [], [sampleOutput 0 1 5]⟩,
    ⟨2, [sampleTx 0 2, sampleTx 1 3], [sampleSpend 0 1, sampleSpend 1 1], []⟩]

/-- Both inputs get a row, also where the cache gives the output up at the first. -/
theorem applyCalls_double_spend :
    ¬SpentOnce (makeKey (wordBytes 32 1) 0) false
        (appliedCalls (fun _ => .stored _ _) (StoreMode.bulk.openStore .empty)
          sampleDoubleSpend) ∧
      ¬SpentOnce (makeKey (wordBytes 32 1) 0) false
        (appliedCalls (fun _ => .stored _ _) ((StoreMode.cached 224).openStore .empty)
          sampleDoubleSpend) ∧
      ¬SpentOnce (makeKey (wordBytes 32 1) 0) false
        (appliedCalls (fun _ => .stored _ _) (StoreMode.live.openStore .empty)
          sampleDoubleSpend) := by
  decide +kernel

end Bidx
