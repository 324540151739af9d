import Bidx.Store.Utxo

/-!
# What one `apply_block` does to the database

The specification of `apply_block` for a store without a cache, one outpoint at
a time.  The input loop is followed by the invariant `DirectLoop`, which relates
the loop variables to the outpoints named so far and to the list `reads` of
database hits:

* the pending map is the seeded one without the named outpoints;
* the batch deletes exactly the outpoints of `reads`, and with undo on `reads`
  is the `spent` list of the undo record;
* every entry of `reads` is what the database holds there.

An outpoint the block creates is answered from the pending map first, so it can
reach the database only when it is named a second time (`reads_twice`).
-/

namespace Bidx

open KeyValue

/-- The decoded entry of the default column family. -/
def Db.value (db : Db) (k : Key) : Option UtxoValue := (db.utxo k).bind UtxoValue.decode

/-- The outpoints the non-coinbase inputs name, in input order. -/
def spentKeys (inputs : List InputRow) : List Key :=
  (inputs.filter fun inp => !inp.isCoinbase).map InputRow.key

/-- The outpoints the outputs create, in output order. -/
def createdKeys (outputs : List OutputRow) : List Key := outputs.map OutputRow.key

@[simp] theorem spentKeys_nil : spentKeys [] = [] := rfl

theorem spentKeys_cons_coinbase {inp : InputRow} (h : inp.isCoinbase = true)
    (inputs : List InputRow) : spentKeys (inp :: inputs) = spentKeys inputs := by
  simp [spentKeys, h]

theorem spentKeys_cons_spend {inp : InputRow} (h : inp.isCoinbase = false)
    (inputs : List InputRow) : spentKeys (inp :: inputs) = inp.key :: spentKeys inputs := by
  simp [spentKeys, h]

theorem spentKeys_append (inputs inputs' : List InputRow) :
    spentKeys (inputs ++ inputs') = spentKeys inputs ++ spentKeys inputs' := by
  simp [spentKeys]

theorem spentKeys_cons (inp : InputRow) (inputs : List InputRow) :
    spentKeys (inp :: inputs) = spentKeys [inp] ++ spentKeys inputs := by
  rw [← spentKeys_append, List.singleton_append]

theorem length_spentKeys_le (inputs : List InputRow) :
    (spentKeys inputs).length ≤ inputs.length := by
  rw [spentKeys, List.length_map]
  exact List.length_filter_le _ _

/-- Exactly the created outpoints are seeded. -/
theorem lookup_seedPending_eq_none {height : UInt32} {outputs : List OutputRow} {k : Key} :
    (seedPending height outputs).lookup k = none ↔ k ∉ createdKeys outputs := by
  have hkeys : (outputs.map fun out => (out.key, out.value height)).map Prod.fst =
      createdKeys outputs := by
    simp [createdKeys, List.map_map, Function.comp_def]
  constructor
  · intro hnone hmem
    rw [← hkeys] at hmem
    obtain ⟨v, hv, -⟩ := lookup_insertAll_of_mem (m := ∅) hmem
    rw [seedPending, hv] at hnone
    contradiction
  · intro hnot
    rw [← hkeys] at hnot
    rw [seedPending, lookup_insertAll_of_notMem hnot, AList.lookup_empty]

/-! ## One round of the input loop -/

/-- `record_spend` only ever pushes its row and credits its fee. -/
theorem recordSpend_eq_ok {height : UInt32} {inp : InputRow} {v : UtxoValue}
    {st st' : InputLoop} (h : recordSpend height inp v st = .ok st') :
    inp.txIndex.toNat < st.fees.length ∧
      st' = { st with
        spends := st.spends ++ [spendRow height inp v]
        fees := st.fees.modify inp.txIndex.toNat (saturatingAdd · v.valueSat) } := by
  unfold recordSpend at h
  split at h
  · rename_i hlt
    exact ⟨hlt, (Except.ok.inj h).symm⟩
  · contradiction

/-- Everything a round that goes on can do, in any mode. -/
theorem resolveInput_eq_ok {db : Db} {undoEnabled : Bool} {faults : RocksFaults}
    {height : UInt32} {st st' : InputLoop} {inp : InputRow}
    (h : resolveInput db undoEnabled faults height st inp = .ok st') :
    (inp.isCoinbase = true ∧ st' = st) ∨
    (inp.isCoinbase = false ∧ ∃ v, st.pending.lookup inp.key = some v ∧
      inp.txIndex.toNat < st.fees.length ∧
      st' = { st with
        pending := st.pending.erase inp.key
        sameBlock := if undoEnabled then inp.key :: st.sameBlock else st.sameBlock
        pendingHits := st.pendingHits + 1
        spends := st.spends ++ [spendRow height inp v]
        fees := st.fees.modify inp.txIndex.toNat (saturatingAdd · v.valueSat) }) ∨
    (inp.isCoinbase = false ∧ st.pending.lookup inp.key = none ∧
      ∃ v recent, removeRecent st.recent inp.key = (some v, recent) ∧
      inp.txIndex.toNat < st.fees.length ∧
      st' = { st with
        recent
        cacheHits := st.cacheHits + 1
        batch := st.batch ++ [.delete inp.key]
        spends := st.spends ++ [spendRow height inp v]
        fees := st.fees.modify inp.txIndex.toNat (saturatingAdd · v.valueSat) }) ∨
    (inp.isCoinbase = false ∧ st.pending.lookup inp.key = none ∧
      ∃ v recent, removeRecent st.recent inp.key = (none, recent) ∧
      db.value inp.key = some v ∧ inp.txIndex.toNat < st.fees.length ∧
      st' = { st with
        recent
        dbLookups := st.dbLookups + 1
        batch := st.batch ++ [.delete inp.key]
        undoSpent := if undoEnabled then st.undoSpent ++ [(inp.key, v)] else st.undoSpent
        spends := st.spends ++ [spendRow height inp v]
        fees := st.fees.modify inp.txIndex.toNat (saturatingAdd · v.valueSat) }) ∨
    (inp.isCoinbase = false ∧ st.pending.lookup inp.key = none ∧
      ∃ recent, removeRecent st.recent inp.key = (none, recent) ∧ db.value inp.key = none ∧
      st' = { st with
        recent
        dbLookups := st.dbLookups + 1
        missing := st.missing + 1 }) := by
  unfold resolveInput at h
  cases hcb : inp.isCoinbase with
  | true =>
      rw [if_pos hcb] at h
      exact .inl ⟨rfl, (Except.ok.inj h).symm⟩
  | false =>
      rw [if_neg (by simp [hcb])] at h
      refine .inr ?_
      cases hpend : st.pending.lookup inp.key with
      | some v =>
          simp only [hpend] at h
          obtain ⟨hlt, hst⟩ := recordSpend_eq_ok h
          exact .inl ⟨rfl, v, rfl, hlt, hst⟩
      | none =>
          simp only [hpend] at h
          refine .inr ?_
          rcases hrecent : removeRecent st.recent inp.key with ⟨_ | v, recent⟩
          · -- Not in the cache: the database is read.
            simp only [hrecent, lookupDb] at h
            split at h
            · contradiction
            · cases hdb : db.value inp.key with
              | some v =>
                  have hbind : (db.utxo inp.key).bind UtxoValue.decode = some v := hdb
                  simp only [hbind] at h
                  obtain ⟨hlt, hst⟩ := recordSpend_eq_ok h
                  exact .inr (.inl ⟨rfl, rfl, v, recent, rfl, rfl, hlt, hst⟩)
              | none =>
                  have hbind : (db.utxo inp.key).bind UtxoValue.decode = none := hdb
                  simp only [hbind] at h
                  exact .inr (.inr ⟨rfl, rfl, recent, rfl, rfl, (Except.ok.inj h).symm⟩)
          · simp only [hrecent] at h
            obtain ⟨hlt, hst⟩ := recordSpend_eq_ok h
            exact .inl ⟨rfl, rfl, v, recent, rfl, hlt, hst⟩

/-- A loop that goes through a first input and the others. -/
theorem resolveInputs_cons_eq_ok {db : Db} {undoEnabled : Bool} {faults : RocksFaults}
    {height : UInt32} {st st' : InputLoop} {inp : InputRow} {inputs : List InputRow} :
    resolveInputs db undoEnabled faults height (inp :: inputs) st = .ok st' ↔
      ∃ st₁, resolveInput db undoEnabled faults height st inp = .ok st₁ ∧
        resolveInputs db undoEnabled faults height inputs st₁ = .ok st' := by
  rw [resolveInputs]
  cases resolveInput db undoEnabled faults height st inp with
  | ok st₁ => simp
  | error aborted => simp

/-- With rows in range a round goes on, or its database read failed. -/
theorem resolveInput_goes_on {db : Db} {undoEnabled : Bool} {faults : RocksFaults}
    {height : UInt32} {st : InputLoop} {inp : InputRow}
    (hlt : inp.txIndex.toNat < st.fees.length) :
    (∃ st', resolveInput db undoEnabled faults height st inp = .ok st') ∨
      ∃ recent, resolveInput db undoEnabled faults height st inp = .error ⟨.error .rocks, recent⟩ ∧
        ∃ n, faults.get n = true := by
  unfold resolveInput
  cases hcb : inp.isCoinbase with
  | true =>
      rw [if_pos rfl]
      exact .inl ⟨_, rfl⟩
  | false =>
      rw [if_neg Bool.false_ne_true]
      cases hpending : st.pending.lookup inp.key with
      | some v =>
          simp only [recordSpend, if_pos hlt]
          exact .inl ⟨_, rfl⟩
      | none =>
          rcases hrecent : removeRecent st.recent inp.key with ⟨_ | v, recent⟩
          · simp only [lookupDb]
            by_cases hfault : faults.get st.dbLookups = true
            · rw [if_pos hfault]
              exact .inr ⟨recent, rfl, _, hfault⟩
            · rw [if_neg hfault]
              cases hv : (db.utxo inp.key).bind UtxoValue.decode with
              | some v =>
                  simp only [recordSpend, if_pos hlt]
                  exact .inl ⟨_, rfl⟩
              | none => exact .inl ⟨_, rfl⟩
          · simp only [recordSpend, if_pos hlt]
            exact .inl ⟨_, rfl⟩

/-- Everything a round can do in a store without a cache, RocksDB not failing. -/
theorem resolveInput_cases {db : Db} {undoEnabled : Bool} {height : UInt32}
    {st st' : InputLoop} {inp : InputRow} (hrecent : st.recent = none)
    (h : resolveInput db undoEnabled .none height st inp = .ok st') :
    (inp.isCoinbase = true ∧ st' = st) ∨
    (inp.isCoinbase = false ∧ ∃ v, st.pending.lookup inp.key = some v ∧
      inp.txIndex.toNat < st.fees.length ∧
      st' = { st with
        pending := st.pending.erase inp.key
        sameBlock := if undoEnabled then inp.key :: st.sameBlock else st.sameBlock
        pendingHits := st.pendingHits + 1
        spends := st.spends ++ [spendRow height inp v]
        fees := st.fees.modify inp.txIndex.toNat (saturatingAdd · v.valueSat) }) ∨
    (inp.isCoinbase = false ∧ st.pending.lookup inp.key = none ∧
      ∃ v, db.value inp.key = some v ∧ inp.txIndex.toNat < st.fees.length ∧
      st' = { st with
        dbLookups := st.dbLookups + 1
        batch := st.batch ++ [.delete inp.key]
        undoSpent := if undoEnabled then st.undoSpent ++ [(inp.key, v)] else st.undoSpent
        spends := st.spends ++ [spendRow height inp v]
        fees := st.fees.modify inp.txIndex.toNat (saturatingAdd · v.valueSat) }) ∨
    (inp.isCoinbase = false ∧ st.pending.lookup inp.key = none ∧ db.value inp.key = none ∧
      st' = { st with dbLookups := st.dbLookups + 1, missing := st.missing + 1 }) := by
  have hmiss : removeRecent st.recent inp.key = (none, st.recent) := by
    rw [hrecent]
    rfl
  rcases resolveInput_eq_ok h with hcb | hpend | ⟨-, -, v, recent, hhit, -, -⟩ |
    ⟨hcb, hpend, v, recent, hremoved, hval, hlt, hst⟩ | ⟨hcb, hpend, recent, hremoved, hval, hst⟩
  · exact .inl hcb
  · exact .inr (.inl hpend)
  · rw [hmiss] at hhit
    cases hhit
  · obtain rfl := (Prod.mk.inj (hmiss.symm.trans hremoved)).2
    exact .inr (.inr (.inl ⟨hcb, hpend, v, hval, hlt, hst⟩))
  · obtain rfl := (Prod.mk.inj (hmiss.symm.trans hremoved)).2
    exact .inr (.inr (.inr ⟨hcb, hpend, hval, hst⟩))

/-! ## The loop invariant -/

/-- The state of the input loop after the outpoints `seen`, started from the
pending map `seeded`. -/
structure DirectLoop (db : Db) (undoEnabled : Bool) (seeded : UtxoMap) (seen : List Key)
    (reads : List (Key × UtxoValue)) (st : InputLoop) : Prop where
  recent : st.recent = none
  pending : ∀ k, st.pending.lookup k = if k ∈ seen then none else seeded.lookup k
  batch : st.batch = reads.map fun e => .delete e.1
  undoSpent : undoEnabled = true → st.undoSpent = reads
  sameBlock : undoEnabled = true → ∀ k, k ∈ st.sameBlock ↔ k ∈ seen ∧ seeded.lookup k ≠ none
  reads_value : ∀ e ∈ reads, db.value e.1 = some e.2
  reads_seen : ∀ k ∈ reads.map Prod.fst, k ∈ seen
  reads_twice : ∀ k ∈ reads.map Prod.fst, seeded.lookup k ≠ none → 2 ≤ seen.count k
  seen_reads : ∀ k ∈ seen, seeded.lookup k = none → db.value k ≠ none → k ∈ reads.map Prod.fst
  reads_length : reads.length ≤ seen.length

namespace DirectLoop

variable {db : Db} {undoEnabled : Bool} {height : UInt32} {seeded : UtxoMap} {seen : List Key}
  {reads : List (Key × UtxoValue)} {st st' : InputLoop}

theorem initial (db : Db) (undoEnabled : Bool) (height : UInt32) (txs : List TxRow)
    (outputs : List OutputRow) :
    DirectLoop db undoEnabled (seedPending height outputs) [] []
      (initialLoop none height txs outputs) := by
  constructor <;> simp [initialLoop]

/-- A created outpoint that is no longer pending has been named before. -/
theorem mem_seen (inv : DirectLoop db undoEnabled seeded seen reads st) {k : Key}
    (hpend : st.pending.lookup k = none) (hne : seeded.lookup k ≠ none) : k ∈ seen := by
  by_contra hnot
  have h := inv.pending k
  rw [hpend, if_neg hnot] at h
  exact hne h.symm

/-- Naming an outpoint that is not pending needs no change of the pending map. -/
theorem pending_snoc (inv : DirectLoop db undoEnabled seeded seen reads st) {k : Key}
    (hpend : st.pending.lookup k = none) (a : Key) :
    st.pending.lookup a = if a ∈ seen ++ [k] then none else seeded.lookup a := by
  simp only [inv.pending a, List.mem_append, List.mem_singleton]
  by_cases ha : a = k
  · subst ha
    have h := inv.pending a
    rw [hpend] at h
    simp [← h]
  · simp [ha]

theorem sameBlock_snoc (inv : DirectLoop db undoEnabled seeded seen reads st) {k : Key}
    (hpend : st.pending.lookup k = none) (hundo : undoEnabled = true) (a : Key) :
    a ∈ st.sameBlock ↔ a ∈ seen ++ [k] ∧ seeded.lookup a ≠ none := by
  rw [inv.sameBlock hundo]
  constructor
  · rintro ⟨ha, hne⟩
    exact ⟨List.mem_append_left _ ha, hne⟩
  · rintro ⟨ha, hne⟩
    rcases List.mem_append.mp ha with hold | hnew
    · exact ⟨hold, hne⟩
    · obtain rfl := List.mem_singleton.mp hnew
      exact ⟨inv.mem_seen hpend hne, hne⟩

/-! An outpoint named without a read leaves the reads as they are. -/

theorem reads_seen_snoc (inv : DirectLoop db undoEnabled seeded seen reads st) (k : Key) :
    ∀ a ∈ reads.map Prod.fst, a ∈ seen ++ [k] := by
  intro a ha
  exact List.mem_append_left _ (inv.reads_seen a ha)

theorem reads_twice_snoc (inv : DirectLoop db undoEnabled seeded seen reads st) (k : Key) :
    ∀ a ∈ reads.map Prod.fst, seeded.lookup a ≠ none → 2 ≤ (seen ++ [k]).count a := by
  intro a ha hne
  rw [List.count_append]
  exact Nat.le_add_right_of_le (inv.reads_twice a ha hne)

theorem seen_reads_snoc (inv : DirectLoop db undoEnabled seeded seen reads st) {k : Key}
    (hk : seeded.lookup k = none → db.value k = none) :
    ∀ a ∈ seen ++ [k], seeded.lookup a = none → db.value a ≠ none →
      a ∈ reads.map Prod.fst := by
  intro a ha hnone hne
  rcases List.mem_append.mp ha with hold | hnew
  · exact inv.seen_reads a hold hnone hne
  · obtain rfl := List.mem_singleton.mp hnew
    exact absurd (hk hnone) hne

theorem reads_length_snoc (inv : DirectLoop db undoEnabled seeded seen reads st) (k : Key) :
    reads.length ≤ (seen ++ [k]).length := by
  rw [List.length_append]
  exact Nat.le_add_right_of_le inv.reads_length

/-- A spend answered from the pending map. -/
theorem pending_hit (inv : DirectLoop db undoEnabled seeded seen reads st) {k : Key}
    {v : UtxoValue} (hpend : st.pending.lookup k = some v) (hits : Nat)
    (spends : List SpendRow) (fees : List UInt64) :
    DirectLoop db undoEnabled seeded (seen ++ [k]) reads { st with
      pending := st.pending.erase k
      sameBlock := if undoEnabled then k :: st.sameBlock else st.sameBlock
      pendingHits := hits
      spends := spends
      fees := fees } := by
  have hseeded : k ∉ seen ∧ seeded.lookup k = some v := by
    have h := inv.pending k
    rw [hpend] at h
    split at h
    · contradiction
    · exact ⟨by assumption, h.symm⟩
  constructor
  case recent => exact inv.recent
  case pending =>
    intro a
    by_cases ha : a = k
    · subst ha
      simp
    · rw [AList.lookup_erase_ne ha, inv.pending a]
      simp [ha]
  case batch => exact inv.batch
  case undoSpent => exact inv.undoSpent
  case sameBlock =>
    intro hundo a
    simp only [hundo, if_true, List.mem_cons, inv.sameBlock hundo, List.mem_append,
      List.mem_nil_iff, or_false]
    constructor
    · rintro (rfl | ⟨ha, hne⟩)
      · exact ⟨.inr rfl, by simp [hseeded.2]⟩
      · exact ⟨.inl ha, hne⟩
    · rintro ⟨ha | rfl, hne⟩
      · exact .inr ⟨ha, hne⟩
      · exact .inl rfl
  case reads_value => exact inv.reads_value
  case reads_seen => exact inv.reads_seen_snoc k
  case reads_twice => exact inv.reads_twice_snoc k
  case seen_reads =>
    refine inv.seen_reads_snoc fun hnone => ?_
    rw [hseeded.2] at hnone
    contradiction
  case reads_length => exact inv.reads_length_snoc k

/-- A spend answered from the database. -/
theorem db_hit (inv : DirectLoop db undoEnabled seeded seen reads st) {k : Key}
    {v : UtxoValue} (hpend : st.pending.lookup k = none) (hval : db.value k = some v)
    (lookups : Nat) (spends : List SpendRow) (fees : List UInt64) :
    DirectLoop db undoEnabled seeded (seen ++ [k]) (reads ++ [(k, v)]) { st with
      dbLookups := lookups
      batch := st.batch ++ [.delete k]
      undoSpent := if undoEnabled then st.undoSpent ++ [(k, v)] else st.undoSpent
      spends := spends
      fees := fees } := by
  constructor
  case recent => exact inv.recent
  case pending => exact inv.pending_snoc hpend
  case batch => simp [inv.batch]
  case undoSpent =>
    intro hundo
    simp [hundo, inv.undoSpent hundo]
  case sameBlock => exact inv.sameBlock_snoc hpend
  case reads_value =>
    intro e he
    rcases List.mem_append.mp he with hold | hnew
    · exact inv.reads_value e hold
    · obtain rfl := List.mem_singleton.mp hnew
      exact hval
  case reads_seen =>
    intro a ha
    rw [List.map_append, List.mem_append] at ha
    rcases ha with hold | hnew
    · exact inv.reads_seen_snoc k a hold
    · exact List.mem_append_right _ hnew
  case reads_twice =>
    intro a ha hne
    by_cases hold : a ∈ reads.map Prod.fst
    · exact inv.reads_twice_snoc k a hold hne
    · obtain rfl : a = k := by simpa [hold] using ha
      have hpos : 0 < seen.count a := List.count_pos_iff.mpr (inv.mem_seen hpend hne)
      rw [List.count_append, List.count_singleton_self]
      omega
  case seen_reads =>
    intro a ha hnone hne
    rw [List.map_append, List.mem_append]
    rcases List.mem_append.mp ha with hold | hnew
    · exact .inl (inv.seen_reads a hold hnone hne)
    · exact .inr hnew
  case reads_length =>
    simp only [List.length_append, List.length_singleton]
    exact Nat.add_le_add_right inv.reads_length 1

/-- A missing input. -/
theorem db_miss (inv : DirectLoop db undoEnabled seeded seen reads st) {k : Key}
    (hpend : st.pending.lookup k = none) (hval : db.value k = none) (lookups missing : Nat) :
    DirectLoop db undoEnabled seeded (seen ++ [k]) reads
      { st with dbLookups := lookups, missing := missing } := by
  constructor
  case recent => exact inv.recent
  case pending => exact inv.pending_snoc hpend
  case batch => exact inv.batch
  case undoSpent => exact inv.undoSpent
  case sameBlock => exact inv.sameBlock_snoc hpend
  case reads_value => exact inv.reads_value
  case reads_seen => exact inv.reads_seen_snoc k
  case reads_twice => exact inv.reads_twice_snoc k
  case seen_reads => exact inv.seen_reads_snoc fun _ => hval
  case reads_length => exact inv.reads_length_snoc k

/-- One round keeps the invariant, with the outpoint it names added. -/
theorem resolveInput (inv : DirectLoop db undoEnabled seeded seen reads st) {inp : InputRow}
    (h : Bidx.resolveInput db undoEnabled .none height st inp = .ok st') :
    ∃ reads', DirectLoop db undoEnabled seeded (seen ++ spentKeys [inp]) reads' st' := by
  rcases resolveInput_cases inv.recent h with ⟨hcb, rfl⟩ | ⟨hcb, v, hpend, -, rfl⟩ |
    ⟨hcb, hpend, v, hval, -, rfl⟩ | ⟨hcb, hpend, hval, rfl⟩
  · rw [spentKeys_cons_coinbase hcb, spentKeys_nil, List.append_nil]
    exact ⟨reads, inv⟩
  · rw [spentKeys_cons_spend hcb, spentKeys_nil]
    exact ⟨reads, inv.pending_hit hpend _ _ _⟩
  · rw [spentKeys_cons_spend hcb, spentKeys_nil]
    exact ⟨reads ++ [(inp.key, v)], inv.db_hit hpend hval _ _ _⟩
  · rw [spentKeys_cons_spend hcb, spentKeys_nil]
    exact ⟨reads, inv.db_miss hpend hval _ _⟩

/-- The whole loop: by induction over the inputs still to come. -/
theorem resolveInputs {inputs : List InputRow}
    (inv : DirectLoop db undoEnabled seeded seen reads st)
    (h : Bidx.resolveInputs db undoEnabled .none height inputs st = .ok st') :
    ∃ reads', DirectLoop db undoEnabled seeded (seen ++ spentKeys inputs) reads' st' := by
  induction inputs generalizing seen reads st with
  | nil =>
      obtain rfl := Except.ok.inj h
      rw [spentKeys_nil, List.append_nil]
      exact ⟨reads, inv⟩
  | cons inp inputs ih =>
      obtain ⟨st₁, hstep, hrest⟩ := resolveInputs_cons_eq_ok.mp h
      obtain ⟨reads₁, inv₁⟩ := inv.resolveInput hstep
      obtain ⟨reads₂, inv₂⟩ := ih inv₁ hrest
      refine ⟨reads₂, ?_⟩
      rw [spentKeys_cons, ← List.append_assoc]
      exact inv₂

end DirectLoop

/-! ## The call -/

/-- The result of a call, from its loop's last state and the final fees. -/
def InputLoop.result (st : InputLoop) (fees : List UInt64) : SpendResult where
  spends := st.spends
  fees
  missing := st.missing
  dbLookups := st.dbLookups
  pendingHits := st.pendingHits
  cacheHits := st.cacheHits

/-- The ways through a call: stopped in its loop, out of range in the second pass, failed at
the write, or returned. -/
inductive ApplyRun (order : IterOrder Key UtxoValue) (faults : RocksFaults) (s : UtxoStore)
    (height : UInt32) (txs : List TxRow) (inputs : List InputRow) (outputs : List OutputRow) :
    Except (Stop UtxoError) SpendResult × UtxoStore → Prop
  | aborts {stop : Stop UtxoError} {recent : Option RecentUtxoCache}
      (hloop : resolveInputs s.db s.undoEnabled faults height inputs
        (initialLoop s.recent height txs outputs) = .error ⟨stop, recent⟩) :
      ApplyRun order faults s height txs inputs outputs (.error stop, { s with recent })
  | panics {st : InputLoop}
      (hloop : resolveInputs s.db s.undoEnabled faults height inputs
        (initialLoop s.recent height txs outputs) = .ok st)
      (hfees : subtractOutputs outputs st.fees = none) :
      ApplyRun order faults s height txs inputs outputs
        (.error .panic, { s with recent := st.recent.map (publish order st.pending) })
  | writeFails {st : InputLoop} {fees : List UInt64}
      (hloop : resolveInputs s.db s.undoEnabled faults height inputs
        (initialLoop s.recent height txs outputs) = .ok st)
      (hfees : subtractOutputs outputs st.fees = some fees) (hwrite : faults.write = true) :
      ApplyRun order faults s height txs inputs outputs
        (.error (.error .rocks), { s with recent := st.recent.map (publish order st.pending) })
  | returns {st : InputLoop} {fees : List UInt64}
      (hloop : resolveInputs s.db s.undoEnabled faults height inputs
        (initialLoop s.recent height txs outputs) = .ok st)
      (hfees : subtractOutputs outputs st.fees = some fees) (hwrite : faults.write = false) :
      ApplyRun order faults s height txs inputs outputs (.ok (st.result fees), { s with
        recent := st.recent.map (publish order st.pending)
        db := s.db.write (blockBatch order s.undoEnabled height outputs st) })

/-- Everything a call can do, in any mode. -/
theorem applyBlock_run (order : IterOrder Key UtxoValue) (faults : RocksFaults) (s : UtxoStore)
    (height : UInt32) (txs : List TxRow) (inputs : List InputRow) (outputs : List OutputRow) :
    ApplyRun order faults s height txs inputs outputs
      (s.applyBlock order faults height txs inputs outputs) := by
  unfold UtxoStore.applyBlock
  cases hloop : resolveInputs s.db s.undoEnabled faults height inputs
      (initialLoop s.recent height txs outputs) with
  | error aborted => exact .aborts hloop
  | ok st =>
      cases hfees : subtractOutputs outputs st.fees with
      | none =>
          simp only [hfees]
          exact .panics hloop hfees
      | some fees =>
          simp only [hfees]
          by_cases hwrite : faults.write = true
          · rw [if_pos hwrite]
            exact .writeFails hloop hfees hwrite
          · rw [if_neg hwrite]
            exact .returns hloop hfees (Bool.eq_false_of_not_eq_true hwrite)

/-- A successful call, in any mode: its loop went through, the charges were in range, and
the batch was written. -/
theorem applyBlock_eq_ok {order : IterOrder Key UtxoValue} {faults : RocksFaults}
    {s s' : UtxoStore} {height : UInt32} {txs : List TxRow} {inputs : List InputRow}
    {outputs : List OutputRow} {res : SpendResult}
    (h : s.applyBlock order faults height txs inputs outputs = (.ok res, s')) :
    ∃ st fees,
      resolveInputs s.db s.undoEnabled faults height inputs
        (initialLoop s.recent height txs outputs) = .ok st ∧
      subtractOutputs outputs st.fees = some fees ∧ faults.write = false ∧
      res = st.result fees ∧
      s' = { s with
        recent := st.recent.map (publish order st.pending)
        db := s.db.write (blockBatch order s.undoEnabled height outputs st) } := by
  have hrun := applyBlock_run order faults s height txs inputs outputs
  rw [h] at hrun
  cases hrun with
  | @returns st fees hloop hfees hwrite => exact ⟨st, fees, hloop, hfees, hwrite, rfl, rfl⟩

/-- A successful call on a store without a cache: what it returns and what it
leaves behind, in terms of the final state of its input loop. -/
theorem applyBlock_direct {order : IterOrder Key UtxoValue} {s s' : UtxoStore} {height : UInt32}
    {txs : List TxRow} {inputs : List InputRow} {outputs : List OutputRow} {res : SpendResult}
    (hrecent : s.recent = none)
    (h : s.applyBlock order .none height txs inputs outputs = (.ok res, s')) :
    ∃ st reads,
      resolveInputs s.db s.undoEnabled .none height inputs
        (initialLoop none height txs outputs) = .ok st ∧
      DirectLoop s.db s.undoEnabled (seedPending height outputs) (spentKeys inputs) reads st ∧
      res.spends = st.spends ∧ res.missing = st.missing ∧
      subtractOutputs outputs st.fees = some res.fees ∧
      s' = { s with db := s.db.write (blockBatch order s.undoEnabled height outputs st) } := by
  obtain ⟨st, fees, hloop, hfees, -, rfl, rfl⟩ := applyBlock_eq_ok h
  rw [hrecent] at hloop
  obtain ⟨reads, inv⟩ :=
    (DirectLoop.initial s.db s.undoEnabled height txs outputs).resolveInputs hloop
  rw [List.nil_append] at inv
  refine ⟨st, reads, hloop, inv, rfl, rfl, hfees, ?_⟩
  rw [inv.recent, Option.map_none, ← hrecent]

/-- A call whose loop runs through and whose charges are in range succeeds. -/
theorem applyBlock_of_loop (order : IterOrder Key UtxoValue) {s : UtxoStore} {height : UInt32}
    {txs : List TxRow} {inputs : List InputRow} {outputs : List OutputRow} {st : InputLoop}
    {fees : List UInt64} (hrecent : s.recent = none)
    (hloop : resolveInputs s.db s.undoEnabled .none height inputs
      (initialLoop none height txs outputs) = .ok st)
    (hst : st.recent = none) (hfees : subtractOutputs outputs st.fees = some fees) :
    ∃ res, s.applyBlock order .none height txs inputs outputs =
        (.ok res, { s with db := s.db.write (blockBatch order s.undoEnabled height outputs st) }) ∧
      res.spends = st.spends ∧ res.fees = fees ∧ res.missing = st.missing := by
  unfold UtxoStore.applyBlock
  rw [hrecent]
  simp only [hloop, hfees, hst, Option.map_none]
  simp only [RocksFaults.none, Bool.false_eq_true, if_false]
  exact ⟨_, rfl, rfl, rfl, rfl⟩

/-- The default column family after the block, at one outpoint: a surviving
output is put, a database hit is deleted, everything else stays. -/
theorem DirectLoop.utxo_after {db : Db} {undoEnabled : Bool} {height : UInt32}
    {outputs : List OutputRow} {inputs : List InputRow} {reads : List (Key × UtxoValue)}
    {st : InputLoop}
    (inv : DirectLoop db undoEnabled (seedPending height outputs) (spentKeys inputs) reads st)
    (order : IterOrder Key UtxoValue) (k : Key) :
    (db.write (blockBatch order undoEnabled height outputs st)).utxo k =
      ((if k ∈ spentKeys inputs then none
        else (seedPending height outputs).lookup k).map UtxoValue.encode).or
          (if k ∈ reads.map Prod.fst then none else db.utxo k) := by
  have hbatch : st.batch = (reads.map Prod.fst).map Op.delete := by
    rw [inv.batch, List.map_map]
    rfl
  change write db.utxo (st.batch ++ (order.list st.pending).map _) k = _
  rw [write_append, write_puts_iterOrder, inv.pending k, hbatch, write_deletes]

/-- Nothing but the block's own undo record changes in the undo family. -/
theorem undo_after (db : Db) (order : IterOrder Key UtxoValue) (undoEnabled : Bool)
    (height : UInt32) (outputs : List OutputRow) (st : InputLoop) :
    (db.write (blockBatch order undoEnabled height outputs st)).undo =
      if undoEnabled then
        Function.update db.undo height (some (blockUndo outputs st).encode)
      else
        db.undo := by
  cases undoEnabled <;> rfl

/-! ## Small rows

The rows the concrete runs of the later modules are made of. -/

/-- An input row that spends output 0 of a transaction. -/
def sampleSpend (txIndex : UInt32) (prevTxid : Nat) : InputRow where
  height := 0
  txIndex
  inputIndex := 0
  txid := zeroBytes 32
  prevTxid := wordBytes 32 prevTxid
  prevVout := 0
  scriptSigLen := 0
  sequence := 0
  witnessItems := 0
  witnessBytes := 0
  isCoinbase := false

/-- Output 0 of a transaction. -/
def sampleOutput (txIndex : UInt32) (txid : Nat) (valueSat : UInt64) : OutputRow where
  height := 0
  txIndex
  outputIndex := 0
  txid := wordBytes 32 txid
  valueSat
  scriptPubkeyLen := 0
  scriptType := 0
  addressHash := zeroBytes 32

/-- The row of a transaction. -/
def sampleTx (txIndex : UInt32) (txid : Nat) : TxRow where
  height := 0
  txIndex
  txid := wordBytes 32 txid
  version := 1
  locktime := 0
  size := 0
  weight := 0
  fee := 0
  inputCount := 1
  outputCount := 1
  hasWitness := false

/-- A ledger whose one entry is output 0 of transaction 1. -/
def sampleLedger : Key → Option UtxoValue :=
  Function.update (fun _ => none) (makeKey (wordBytes 32 1) 0) (some ⟨5, 0, 3, zeroBytes 32⟩)

/-- A database holding it. -/
def sampleDb : Db where
  utxo k := (sampleLedger k).map UtxoValue.encode
  undo := fun _ => none
  tip := none

end Bidx
