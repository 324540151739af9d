import Bidx.Parser.RowShape
import Bidx.Store.Disconnect
import Bidx.Store.LedgerRefinement

/-!
# A parsed block's effect on a live store

On parsed rows `apply_block` always succeeds, and what it leaves depends on the
UTXO table alone: not on the iteration order, the undo records or the tip.  That
effect is named here (`tableAfter`, `undoAfter`), and for rows that spend no
outpoint twice it is given outpoint by outpoint.
-/

namespace Bidx

open KeyValue

/-- The default column family. -/
abbrev Table := Key → Option (List UInt8)

/-- A live store with this table and nothing else. -/
def Table.store (S : Table) : UtxoStore := .openLive ⟨S, fun _ => none, none⟩

/-- `apply_block` on the rows of a parsed block. -/
def UtxoStore.applyFull (order : IterOrder Key UtxoValue) (s : UtxoStore) (height : UInt32)
    (block : FullBlock) : Except (Stop UtxoError) SpendResult × UtxoStore :=
  s.applyBlock order .none height block.txs block.inputs block.outputs

/-- The table a block leaves. -/
def tableAfter (height : UInt32) (block : FullBlock) (S : Table) : Table :=
  (S.store.applyFull (.stored _ _) height block).2.db.utxo

/-- The undo record a block writes. -/
def undoAfter (height : UInt32) (block : FullBlock) (S : Table) : Option (List UInt8) :=
  (S.store.applyFull (.stored _ _) height block).2.db.undo height

/-- A store after a block. -/
def UtxoStore.advanced (s : UtxoStore) (height : UInt32) (block : FullBlock) : UtxoStore :=
  { s with db := ⟨tableAfter height block s.db.utxo,
    Function.update s.db.undo height (undoAfter height block s.db.utxo), s.db.tip⟩ }

section Advanced

variable (s : UtxoStore) (height : UInt32) (block : FullBlock) (tip : TipState)

@[simp] theorem UtxoStore.advanced_utxo :
    (s.advanced height block).db.utxo = tableAfter height block s.db.utxo := rfl

@[simp] theorem UtxoStore.advanced_undo :
    (s.advanced height block).db.undo =
      Function.update s.db.undo height (undoAfter height block s.db.utxo) := rfl

@[simp] theorem UtxoStore.tip_advanced : (s.advanced height block).tip = s.tip := rfl

@[simp] theorem UtxoStore.setTip_utxo : (s.setTip tip).db.utxo = s.db.utxo := rfl

@[simp] theorem UtxoStore.setTip_undo : (s.setTip tip).db.undo = s.db.undo := rfl

theorem UtxoStore.Live.advanced {s : UtxoStore} (h : s.Live) (height : UInt32)
    (block : FullBlock) : (s.advanced height block).Live := ⟨h.undoEnabled, h.recent⟩

theorem UtxoStore.Live.setTip {s : UtxoStore} (h : s.Live) (tip : TipState) :
    (s.setTip tip).Live := ⟨h.undoEnabled, h.recent⟩

theorem Table.live_store (S : Table) : S.store.Live := UtxoStore.live_openLive _

end Advanced

/-! ## Applying parsed rows -/

section Total

variable (db : Db) (undoEnabled : Bool) (height : UInt32)

/-- An input of a transaction of the block is resolved one way or another. -/
theorem resolveInput_total {st : InputLoop} {inp : InputRow} (hrecent : st.recent = none)
    (hlt : inp.txIndex.toNat < st.fees.length) :
    ∃ st', resolveInput db undoEnabled .none height st inp = .ok st' ∧
      st'.recent = none ∧ st'.fees.length = st.fees.length := by
  rcases @resolveInput_goes_on db undoEnabled .none height st inp hlt with
    ⟨st', hstep⟩ | ⟨-, -, n, hn⟩
  · refine ⟨st', hstep, ?_⟩
    rcases resolveInput_cases hrecent hstep with ⟨-, rfl⟩ | ⟨-, v, -, -, rfl⟩ |
      ⟨-, -, v, -, -, rfl⟩ | ⟨-, -, -, rfl⟩
    · exact ⟨hrecent, rfl⟩
    · exact ⟨hrecent, List.length_modify _ _ _⟩
    · exact ⟨hrecent, List.length_modify _ _ _⟩
    · exact ⟨hrecent, rfl⟩
  · exact absurd hn Bool.false_ne_true

theorem resolveInputs_total {inputs : List InputRow} {st : InputLoop} (hrecent : st.recent = none)
    (hlt : ∀ inp ∈ inputs, inp.txIndex.toNat < st.fees.length) :
    ∃ st', resolveInputs db undoEnabled .none height inputs st = .ok st' ∧
      st'.recent = none ∧ st'.fees.length = st.fees.length := by
  induction inputs generalizing st with
  | nil => exact ⟨st, rfl, hrecent, rfl⟩
  | cons inp inputs ih =>
      obtain ⟨st₁, hstep, hrecent₁, hlen₁⟩ :=
        resolveInput_total db undoEnabled height hrecent (hlt inp List.mem_cons_self)
      obtain ⟨st', hloop, hrecent', hlen'⟩ := ih hrecent₁ fun inp' h => by
        rw [hlen₁]
        exact hlt inp' (List.mem_cons_of_mem _ h)
      refine ⟨st', ?_, hrecent', hlen'.trans hlen₁⟩
      rw [resolveInputs, hstep]
      exact hloop

end Total

/-- On well-shaped rows a call succeeds; its loop state shows what it writes. -/
theorem applyFull_of_shape (order : IterOrder Key UtxoValue) (height : UInt32) {s : UtxoStore}
    {block : FullBlock} (hrecent : s.recent = none) (hshape : block.WellShaped) :
    ∃ res st reads, resolveInputs s.db s.undoEnabled .none height block.inputs
        (initialLoop none height block.txs block.outputs) = .ok st ∧
      DirectLoop s.db s.undoEnabled (seedPending height block.outputs) (spentKeys block.inputs)
        reads st ∧
      s.applyFull order height block = (.ok res,
        { s with db := s.db.write (blockBatch order s.undoEnabled height block.outputs st) }) := by
  have hlength : (initialLoop none height block.txs block.outputs).fees.length =
      block.txs.length := List.length_replicate
  have hinputs : ∀ inp ∈ block.inputs, inp.txIndex.toNat <
      (initialLoop none height block.txs block.outputs).fees.length := by
    intro inp hinp
    rw [hlength]
    exact hshape.inputs inp hinp
  obtain ⟨st, hloop, hst, hlen⟩ := resolveInputs_total s.db s.undoEnabled height rfl hinputs
  have houtputs : ∀ out ∈ block.outputs, out.txIndex.toNat < st.fees.length := by
    intro out hout
    rw [hlen, hlength]
    exact hshape.outputs out hout
  have hfees := subtractOutputs_eq houtputs
  obtain ⟨res, hres, -⟩ := applyBlock_of_loop order hrecent hloop hst hfees
  obtain ⟨reads, inv⟩ := (DirectLoop.initial s.db s.undoEnabled height block.txs
    block.outputs).resolveInputs hloop
  exact ⟨res, st, reads, hloop, inv, hres⟩

/-- The loop reads nothing of the database but the table. -/
theorem resolveInputs_congr {db db' : Db} (h : db.utxo = db'.utxo) (undoEnabled : Bool)
    (faults : RocksFaults) (height : UInt32) (inputs : List InputRow) (st : InputLoop) :
    resolveInputs db undoEnabled faults height inputs st =
      resolveInputs db' undoEnabled faults height inputs st := by
  induction inputs generalizing st with
  | nil => rfl
  | cons inp inputs ih =>
      have hstep : resolveInput db undoEnabled faults height st inp =
          resolveInput db' undoEnabled faults height st inp := by
        simp only [resolveInput, lookupDb, h]
      rw [resolveInputs, resolveInputs, hstep]
      split
      · exact ih _
      · rfl

/-! A fault that did not strike leaves no trace. -/

section NoFault

variable {db : Db} {undoEnabled : Bool} {faults : RocksFaults} {height : UInt32} {inp : InputRow}
  {st st' : InputLoop}

theorem lookupDb_none_of_ok (h : lookupDb db undoEnabled faults height inp st = .ok st') :
    lookupDb db undoEnabled .none height inp st = .ok st' := by
  unfold lookupDb at h ⊢
  by_cases hfault : faults.get st.dbLookups = true
  · rw [if_pos hfault] at h
    contradiction
  · rw [if_neg hfault] at h
    rw [if_neg (by simp [RocksFaults.none])]
    exact h

theorem resolveInput_none_of_ok (h : resolveInput db undoEnabled faults height st inp = .ok st') :
    resolveInput db undoEnabled .none height st inp = .ok st' := by
  unfold resolveInput at h ⊢
  by_cases hcb : inp.isCoinbase = true
  · rw [if_pos hcb] at h ⊢
    exact h
  · rw [if_neg hcb] at h ⊢
    cases hpending : st.pending.lookup inp.key with
    | some v =>
        rw [hpending] at h
        exact h
    | none =>
        rw [hpending] at h
        rcases hrecent : removeRecent st.recent inp.key with ⟨_ | v, recent⟩
        · rw [hrecent] at h
          exact lookupDb_none_of_ok h
        · rw [hrecent] at h
          exact h

theorem resolveInputs_none_of_ok {inputs : List InputRow}
    (h : resolveInputs db undoEnabled faults height inputs st = .ok st') :
    resolveInputs db undoEnabled .none height inputs st = .ok st' := by
  induction inputs generalizing st with
  | nil => exact h
  | cons inp inputs ih =>
      obtain ⟨st₁, hstep, hrest⟩ := resolveInputs_cons_eq_ok.mp h
      exact resolveInputs_cons_eq_ok.mpr ⟨st₁, resolveInput_none_of_ok hstep, ih hrest⟩

theorem applyFull_of_applyBlock_ok {order : IterOrder Key UtxoValue} {s s' : UtxoStore}
    {block : FullBlock} {res : SpendResult}
    (h : s.applyBlock order faults height block.txs block.inputs block.outputs =
      (.ok res, s')) : s.applyFull order height block = (.ok res, s') := by
  obtain ⟨st, fees, hloop, hfees, -, rfl, rfl⟩ := applyBlock_eq_ok h
  unfold UtxoStore.applyFull UtxoStore.applyBlock
  rw [resolveInputs_none_of_ok hloop]
  simp only [hfees]
  rw [if_neg (by simp [RocksFaults.none])]
  rfl

end NoFault

/-- A live store takes a parsed block. -/
theorem applyFull_live (order : IterOrder Key UtxoValue) {s : UtxoStore} (hlive : s.Live)
    (height : UInt32) {block : FullBlock} (hshape : block.WellShaped) :
    ∃ res, s.applyFull order height block = (.ok res, s.advanced height block) := by
  obtain ⟨res, st, reads, hloop, inv, hres⟩ :=
    applyFull_of_shape order height hlive.recent hshape
  obtain ⟨res', st', reads', hloop', inv', hres'⟩ := applyFull_of_shape (.stored _ _) height
    (Table.live_store s.db.utxo).recent hshape
  -- Both loops are the same computation.
  have hst : st' = st := by
    rw [hlive.undoEnabled] at hloop
    have hsame := @resolveInputs_congr (Table.store s.db.utxo).db s.db rfl true .none height
      block.inputs (initialLoop none height block.txs block.outputs)
    exact Except.ok.inj (hloop'.symm.trans (hsame.trans hloop))
  subst hst
  refine ⟨res, ?_⟩
  rw [hres]
  have hutxo : (s.db.write (blockBatch order s.undoEnabled height block.outputs st')).utxo =
      tableAfter height block s.db.utxo := by
    funext k
    rw [tableAfter, hres']
    change write s.db.utxo _ k = write s.db.utxo _ k
    simp only [blockBatch, write_append, write_puts_iterOrder]
  have hundo : (s.db.write (blockBatch order s.undoEnabled height block.outputs st')).undo =
      Function.update s.db.undo height (undoAfter height block s.db.utxo) := by
    rw [undo_after, hlive.undoEnabled, if_pos rfl, undoAfter, hres']
    change _ = Function.update s.db.undo height
      ((Db.write _ (blockBatch _ true height block.outputs st')).undo height)
    rw [undo_after, if_pos rfl, Function.update_self]
  rw [UtxoStore.advanced, ← hutxo, ← hundo]
  rfl

/-- Disconnecting a block from any store that holds its table and its record. -/
theorem disconnectBlock_advanced {t : UtxoStore} {S : Table} {height : UInt32}
    {block : FullBlock} (hshape : block.WellShaped)
    (hfresh : ∀ k ∈ createdKeys block.outputs, S k = none)
    (hutxo : t.db.utxo = tableAfter height block S)
    (hundo : t.db.undo height = undoAfter height block S) :
    t.disconnectBlock .none height = (.ok (), t.rolledBack height S) := by
  obtain ⟨res, hres⟩ := applyFull_live (.stored _ _) S.live_store height hshape
  let rows : BlockRows :=
    ⟨block.txs, block.inputs, block.outputs, hshape.inputs_lt, hshape.outputs_lt⟩
  have happly : S.store.applyRows (.stored _ _) height rows =
      (.ok res, S.store.advanced height block) := hres
  refine disconnectBlock_applyRows S.live_store happly hfresh hutxo ?_
  rw [hundo, UtxoStore.advanced_undo, Function.update_self]
  rfl

/-! ## Outpoint by outpoint -/

/-- Every entry of the table is an encoded output. -/
def Table.Decodes (S : Table) : Prop := ∀ k raw, S k = some raw → ∃ v, UtxoValue.decode raw = some v

/-- The effect of rows that spend no outpoint twice.  An outpoint both created and
spent in the block keeps what the table had. -/
def blockTable (height : UInt32) (block : FullBlock) (S : Table) : Table := fun k =>
  if k ∈ spentKeys block.inputs then
    if k ∈ createdKeys block.outputs then S k else none
  else
    (((seedPending height block.outputs).lookup k).map UtxoValue.encode).or (S k)

/-- The block decides what stands at `k`. -/
def Writes (block : FullBlock) (k : Key) : Prop :=
  k ∈ spentKeys block.inputs ∧ k ∉ createdKeys block.outputs ∨
    k ∉ spentKeys block.inputs ∧ k ∈ createdKeys block.outputs

instance (block : FullBlock) (k : Key) : Decidable (Writes block k) :=
  inferInstanceAs (Decidable (_ ∨ _))

section Effect

variable {height : UInt32} {block : FullBlock} {S T : Table} {k : Key}

/-- The reads of a loop over distinct outpoints are of outpoints the block did not
create. -/
theorem DirectLoop.reads_notMem_created {db : Db} {undoEnabled : Bool} {inputs : List InputRow}
    {outputs : List OutputRow} {reads : List (Key × UtxoValue)} {st : InputLoop}
    (inv : DirectLoop db undoEnabled (seedPending height outputs) (spentKeys inputs) reads st)
    (hnodup : (spentKeys inputs).Nodup) (hk : k ∈ reads.map Prod.fst) :
    k ∉ createdKeys outputs := by
  intro hcreated
  have htwice := inv.reads_twice k hk fun hnone => lookup_seedPending_eq_none.mp hnone hcreated
  have honce := List.nodup_iff_count_le_one.mp hnodup k
  omega

theorem DirectLoop.utxo_after_of_nodup {db : Db} {undoEnabled : Bool}
    {reads : List (Key × UtxoValue)} {st : InputLoop}
    (inv : DirectLoop db undoEnabled (seedPending height block.outputs)
      (spentKeys block.inputs) reads st) (order : IterOrder Key UtxoValue)
    (hnodup : (spentKeys block.inputs).Nodup) (hdec : Table.Decodes db.utxo) :
    (db.write (blockBatch order undoEnabled height block.outputs st)).utxo =
      blockTable height block db.utxo := by
  funext k
  rw [inv.utxo_after, blockTable]
  by_cases hspent : k ∈ spentKeys block.inputs
  · rw [if_pos hspent, if_pos hspent, Option.map_none, Option.none_or]
    by_cases hcreated : k ∈ createdKeys block.outputs
    · have hnot : k ∉ reads.map Prod.fst := fun hk =>
        inv.reads_notMem_created hnodup hk hcreated
      rw [if_neg hnot, if_pos hcreated]
    · rw [if_neg hcreated]
      by_cases hread : k ∈ reads.map Prod.fst
      · rw [if_pos hread]
      · -- A spent outpoint that was not read is not in the table.
        rw [if_neg hread]
        cases hraw : db.utxo k with
        | none => rfl
        | some raw =>
            obtain ⟨v, hv⟩ := hdec k raw hraw
            have hvalue : db.value k ≠ none := by simp [Db.value, hraw, hv]
            exact absurd (inv.seen_reads k hspent (lookup_seedPending_eq_none.mpr hcreated)
              hvalue) hread
  · have hnot : k ∉ reads.map Prod.fst := fun hk => hspent (inv.reads_seen k hk)
    rw [if_neg hspent, if_neg hspent, if_neg hnot]

/-- A call on any store without a cache, bulk or live. -/
theorem applyFull_table (order : IterOrder Key UtxoValue) {s : UtxoStore} (height : UInt32)
    (hrecent : s.recent = none) (hshape : block.WellShaped)
    (hnodup : (spentKeys block.inputs).Nodup) (hdec : Table.Decodes s.db.utxo) :
    ∃ res s', s.applyFull order height block = (.ok res, s') ∧
      s'.db.utxo = blockTable height block s.db.utxo ∧ s'.db.tip = s.db.tip ∧
      s'.recent = none := by
  obtain ⟨res, st, reads, -, inv, hres⟩ := applyFull_of_shape order height hrecent hshape
  exact ⟨res, _, hres, inv.utxo_after_of_nodup order hnodup hdec, rfl, hrecent⟩

theorem tableAfter_eq (height : UInt32) (hshape : block.WellShaped)
    (hnodup : (spentKeys block.inputs).Nodup) (hdec : S.Decodes) :
    tableAfter height block S = blockTable height block S := by
  obtain ⟨res, s', hres, hutxo, -⟩ := applyFull_table (.stored _ _) height S.live_store.recent
    hshape hnodup hdec
  rw [tableAfter, hres]
  exact hutxo

theorem blockTable_of_writes (hk : Writes block k) :
    blockTable height block S k = blockTable height block T k := by
  unfold blockTable
  rcases hk with ⟨hspent, hnot⟩ | ⟨hnot, hcreated⟩
  · rw [if_pos hspent, if_pos hspent, if_neg hnot, if_neg hnot]
  · have hne : (seedPending height block.outputs).lookup k ≠ none := fun hnone =>
      lookup_seedPending_eq_none.mp hnone hcreated
    obtain ⟨v, hv⟩ := Option.ne_none_iff_exists'.mp hne
    rw [if_neg hnot, if_neg hnot, hv]
    rfl

theorem blockTable_of_not_writes (hk : ¬Writes block k) : blockTable height block S k = S k := by
  unfold blockTable
  unfold Writes at hk
  by_cases hspent : k ∈ spentKeys block.inputs
  · have hcreated : k ∈ createdKeys block.outputs := by
      by_contra hnot
      exact hk (.inl ⟨hspent, hnot⟩)
    rw [if_pos hspent, if_pos hcreated]
  · have hcreated : k ∉ createdKeys block.outputs := fun h => hk (.inr ⟨hspent, h⟩)
    rw [if_neg hspent, lookup_seedPending_eq_none.mpr hcreated]
    rfl

/-- Two tables agree after a block exactly where it decides or they agreed before. -/
theorem blockTable_agree_iff :
    blockTable height block S k = blockTable height block T k ↔ Writes block k ∨ S k = T k := by
  by_cases hk : Writes block k
  · exact iff_of_true (blockTable_of_writes hk) (.inl hk)
  · rw [blockTable_of_not_writes hk, blockTable_of_not_writes hk, or_iff_right hk]

/-- Applying a block once more changes nothing. -/
theorem blockTable_reapply (height : UInt32) (block : FullBlock) (S : Table) :
    blockTable height block (blockTable height block S) = blockTable height block S := by
  funext k
  by_cases hk : Writes block k
  · exact blockTable_of_writes hk
  · exact blockTable_of_not_writes hk

theorem Table.Decodes.blockTable (hdec : S.Decodes) (height : UInt32) (block : FullBlock) :
    (blockTable height block S).Decodes := by
  intro k raw hraw
  by_cases hk : k ∈ spentKeys block.inputs
  · simp only [Bidx.blockTable, if_pos hk] at hraw
    split at hraw
    · exact hdec k raw hraw
    · contradiction
  · simp only [Bidx.blockTable, if_neg hk] at hraw
    cases hv : (seedPending height block.outputs).lookup k with
    | none =>
        rw [hv] at hraw
        exact hdec k raw hraw
    | some v =>
        rw [hv] at hraw
        obtain rfl := Option.some.inj hraw
        exact ⟨v, UtxoValue.decode_encode v⟩

/-- The record of a block: the reads of its loop, and the outpoints it created and
left.  It has no reads exactly when the table had none of the outpoints the block
spends from it. -/
theorem undoAfter_eq (height : UInt32) (hshape : block.WellShaped)
    (hnodup : (spentKeys block.inputs).Nodup) (hdec : S.Decodes) :
    ∃ reads, undoAfter height block S = some (BlockUndo.encode ⟨reads,
        (createdKeys block.outputs).filter fun k => decide (k ∉ spentKeys block.inputs)⟩) ∧
      reads.length < 2 ^ 64 ∧
      (reads = [] ↔ ∀ k ∈ spentKeys block.inputs, k ∉ createdKeys block.outputs → S k = none) := by
  obtain ⟨res, st, reads, -, inv, hres⟩ :=
    applyFull_of_shape (.stored _ _) height S.live_store.recent hshape
  have hcreated : (createdKeys block.outputs).filter (fun k => decide (k ∉ st.sameBlock)) =
      (createdKeys block.outputs).filter fun k => decide (k ∉ spentKeys block.inputs) := by
    apply List.filter_congr
    intro k hk
    have hne : (seedPending height block.outputs).lookup k ≠ none := fun hnone =>
      lookup_seedPending_eq_none.mp hnone hk
    simp only [inv.sameBlock rfl, ne_eq, hne, not_false_eq_true, and_true]
  refine ⟨reads, ?_, ?_, ?_⟩
  · rw [undoAfter, hres]
    change (Db.write _ (blockBatch _ true height block.outputs st)).undo height = _
    rw [undo_after, if_pos rfl, Function.update_self, ← hcreated, ← inv.undoSpent rfl]
    rfl
  · exact (inv.reads_length.trans (length_spentKeys_le _)).trans_lt hshape.inputs_lt
  · constructor
    · rintro rfl k hspent hnot
      cases hraw : S k with
      | none => rfl
      | some raw =>
          obtain ⟨v, hv⟩ := hdec k raw hraw
          have hvalue : S.store.db.value k ≠ none := by
            change (S k).bind UtxoValue.decode ≠ none
            simp [hraw, hv]
          exact absurd (inv.seen_reads k hspent (lookup_seedPending_eq_none.mpr hnot) hvalue)
            (by simp)
    · intro hnone
      rw [List.eq_nil_iff_forall_not_mem]
      intro e he
      have hmem : e.1 ∈ reads.map Prod.fst := List.mem_map_of_mem he
      have hzero := hnone e.1 (inv.reads_seen _ hmem) (inv.reads_notMem_created hnodup hmem)
      have hvalue := inv.reads_value e he
      change (S e.1).bind UtxoValue.decode = some e.2 at hvalue
      rw [hzero] at hvalue
      contradiction

end Effect

/-! ## Valid blocks -/

/-- The rows of a block that is valid over a table: no outpoint is spent twice,
created outpoints are distinct and new, every spent outpoint is in the table or
was created by an earlier transaction of the block, and every transaction has an
output. -/
structure ValidOver (S : Table) (block : FullBlock) : Prop where
  spent_nodup : (spentKeys block.inputs).Nodup
  created_nodup : (createdKeys block.outputs).Nodup
  fresh : ∀ k ∈ createdKeys block.outputs, S k = none
  known : ∀ inp ∈ block.inputs, inp.isCoinbase = false → S inp.key ≠ none ∨
    ∃ out ∈ block.outputs, out.key = inp.key ∧ out.txIndex < inp.txIndex
  txs_ne_nil : block.txs ≠ []
  has_output : ∀ tx ∈ block.txs, ∃ out ∈ block.outputs, out.txIndex = tx.txIndex

instance (S : Table) (block : FullBlock) : Decidable (ValidOver S block) :=
  decidable_of_iff
    ((spentKeys block.inputs).Nodup ∧ (createdKeys block.outputs).Nodup ∧
      (∀ k ∈ createdKeys block.outputs, S k = none) ∧
      (∀ inp ∈ block.inputs, inp.isCoinbase = false → S inp.key ≠ none ∨
        ∃ out ∈ block.outputs, out.key = inp.key ∧ out.txIndex < inp.txIndex) ∧
      block.txs ≠ [] ∧ ∀ tx ∈ block.txs, ∃ out ∈ block.outputs, out.txIndex = tx.txIndex)
    ⟨fun ⟨h₁, h₂, h₃, h₄, h₅, h₆⟩ => ⟨h₁, h₂, h₃, h₄, h₅, h₆⟩,
      fun ⟨h₁, h₂, h₃, h₄, h₅, h₆⟩ => ⟨h₁, h₂, h₃, h₄, h₅, h₆⟩⟩

/-- The block spends no output of an earlier block. -/
def SpendsOwnOnly (block : FullBlock) : Prop :=
  ∀ k ∈ spentKeys block.inputs, k ∈ createdKeys block.outputs

instance (block : FullBlock) : Decidable (SpendsOwnOnly block) :=
  inferInstanceAs (Decidable (∀ k ∈ spentKeys block.inputs, _))

section Valid

variable {height : UInt32} {block : FullBlock} {S : Table}

/-- A spent outpoint the block did not create is in the table. -/
theorem ValidOver.spent_known (valid : ValidOver S block) {k : Key}
    (hk : k ∈ spentKeys block.inputs) (hnot : k ∉ createdKeys block.outputs) : S k ≠ none := by
  obtain ⟨inp, hinp, rfl⟩ := List.mem_map.mp hk
  obtain ⟨hmem, hcb⟩ := List.mem_filter.mp hinp
  rcases valid.known inp hmem (by simpa using hcb) with hknown | ⟨out, hout, hkey, -⟩
  · exact hknown
  · exact absurd (hkey ▸ List.mem_map_of_mem hout) hnot

/-- A second application writes the same record only if the block spends nothing
from the table. -/
theorem undoAfter_reapply_iff (height : UInt32) (hshape : block.WellShaped)
    (valid : ValidOver S block) (hdec : S.Decodes) :
    undoAfter height block (tableAfter height block S) = undoAfter height block S ↔
      SpendsOwnOnly block := by
  rw [tableAfter_eq height hshape valid.spent_nodup hdec]
  obtain ⟨reads, hundo, hlen, hreads⟩ := undoAfter_eq height hshape valid.spent_nodup hdec
  obtain ⟨reads', hundo', hlen', hreads'⟩ :=
    undoAfter_eq height hshape valid.spent_nodup (hdec.blockTable height block)
  -- The second time, nothing the block spends is left in the table.
  have hnil : reads' = [] := by
    rw [hreads']
    intro k hspent hnot
    rw [blockTable, if_pos hspent, if_neg hnot]
  have hcreated : ((createdKeys block.outputs).filter
      fun k => decide (k ∉ spentKeys block.inputs)).length < 2 ^ 64 := by
    refine (List.length_filter_le _ _).trans_lt ?_
    rw [createdKeys, List.length_map]
    exact hshape.outputs_lt
  rw [hundo, hundo', hnil]
  constructor
  · intro heq
    have hdecode := congrArg (Option.bind · BlockUndo.decode) heq
    simp only [Option.bind_some] at hdecode
    have h₁ := BlockUndo.decode_encode ⟨[], _⟩ (by simp) hcreated []
    have h₂ := BlockUndo.decode_encode ⟨reads, _⟩ hlen hcreated []
    rw [List.append_nil] at h₁ h₂
    rw [h₁, h₂, Option.some.injEq, BlockUndo.mk.injEq] at hdecode
    intro k hspent
    by_contra hnot
    exact valid.spent_known hspent hnot (hreads.mp hdecode.1.symm k hspent hnot)
  · intro hown
    have : reads = [] := hreads.mpr fun k hspent hnot => absurd (hown k hspent) hnot
    rw [this]

/-- A valid block leaves an output of its own height behind: its last transaction
has an output, and nothing in the block comes after it to spend it. -/
theorem ValidOver.leaves_output (height : UInt32) (valid : ValidOver S block)
    (hshape : block.WellShaped) :
    ∃ k v, blockTable height block S k = some (UtxoValue.encode v) ∧ v.height = height := by
  obtain ⟨last, hlast⟩ : ∃ tx, block.txs[block.txs.length - 1]? = some tx := by
    have hpos := List.length_pos_of_ne_nil valid.txs_ne_nil
    exact ⟨_, List.getElem?_eq_getElem (by omega)⟩
  obtain ⟨out, hout, hindex⟩ := valid.has_output last (List.mem_of_getElem? hlast)
  have hcreated : out.key ∈ createdKeys block.outputs := List.mem_map_of_mem hout
  have hunspent : out.key ∉ spentKeys block.inputs := by
    intro hspent
    obtain ⟨inp, hinp, hkey⟩ := List.mem_map.mp hspent
    obtain ⟨hmem, hcb⟩ := List.mem_filter.mp hinp
    rcases valid.known inp hmem (by simpa using hcb) with hknown | ⟨out', hout', hkey', hlt⟩
    · exact hknown (hkey ▸ valid.fresh _ hcreated)
    · obtain rfl := List.inj_on_of_nodup_map valid.created_nodup hout' hout (hkey'.trans hkey)
      have hbound := hshape.inputs inp hmem
      have htop := hshape.txs _ _ hlast
      rw [hindex, UInt32.lt_iff_toNat_lt, htop] at hlt
      omega
  refine ⟨out.key, out.value height, ?_, rfl⟩
  have hlookup : (seedPending height block.outputs).lookup out.key = some (out.value height) := by
    apply lookup_insertAll_of_nodup
    · rw [List.map_map]
      exact valid.created_nodup
    · exact List.mem_map.mpr ⟨out, hout, rfl⟩
  rw [blockTable, if_neg hunspent, hlookup]
  rfl

end Valid

end Bidx
