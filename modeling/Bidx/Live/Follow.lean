import Bidx.Live.Chain
import Bidx.Store.BlockResult

/-!
# Following a chain forward

The forward loop against a node whose best chain stays `B`.  Every call is
answered from `B` or fails, and a durable write may be cut off; the loop then
stops with a stretch of `B` applied, or between the two writes of a round, with a
block applied whose tip record is missing.
-/

namespace Bidx

open KeyValue Tracker

/-- A node that does not answer. -/
structure Fails (view : NodeView) : Prop where
  blockCount : ∃ e, view.blockCount = .error e
  blockHash : ∀ height, ∃ e, view.blockHash height = .error e
  blockRaw : ∀ hash, ∃ e, view.blockRaw hash = .error e

/-- Every call is answered from `B` or not at all. -/
def ServesOrFails (D : Digests) (B : List RawBlock) (node : Nat → NodeView) : Prop :=
  ∀ i, Serves D B (node i) ∨ Fails (node i)

/-! ## The stores on the way -/

/-- A store after the block at a height and its tip record. -/
def UtxoStore.follow (D : Digests) (s : UtxoStore) (height : Nat) (raw : RawBlock) : UtxoStore :=
  match parseAt D raw height with
  | .ok block => (s.advanced (UInt32.ofNat height) block).setTip (tipOf D height raw)
  | .error _ => s

/-- A store after `count` blocks of `B` from `height` on. -/
def UtxoStore.followed (D : Digests) (B : List RawBlock) (s : UtxoStore) (height : Nat) :
    Nat → UtxoStore
  | 0 => s
  | count + 1 =>
      match B[height + count]? with
      | some raw => (s.followed D B height count).follow D (height + count) raw
      | none => s.followed D B height count

/-- A tip record `stored` for the block of `B` at a height. -/
def TipOn (D : Digests) (B : List RawBlock) (height : Nat) (tip : TipState) : Prop :=
  ∃ raw, B[height]? = some raw ∧ tip = tipOf D height raw

section Followed

variable {D : Digests} {B : List RawBlock} {s : UtxoStore} {height count : Nat} {raw : RawBlock}
  {block : FullBlock}

theorem UtxoStore.follow_of_parse (hparse : parseAt D raw height = .ok block) (s : UtxoStore) :
    s.follow D height raw =
      (s.advanced (UInt32.ofNat height) block).setTip (tipOf D height raw) := by
  rw [UtxoStore.follow, hparse]

theorem UtxoStore.tip_follow (hparse : parseAt D raw height = .ok block) (s : UtxoStore) :
    (s.follow D height raw).tip = some (tipOf D height raw) := by
  rw [UtxoStore.follow_of_parse hparse, UtxoStore.tip_setTip]

theorem UtxoStore.followed_succ (hraw : B[height + count]? = some raw) (s : UtxoStore) :
    s.followed D B height (count + 1) =
      (s.followed D B height count).follow D (height + count) raw := by
  rw [UtxoStore.followed, hraw]

/-- The first block first. -/
theorem UtxoStore.followed_cons (hraw : B[height]? = some raw) (s : UtxoStore) (count : Nat) :
    (s.follow D height raw).followed D B (height + 1) count =
      s.followed D B height (count + 1) := by
  induction count with
  | zero =>
      have hraw' : B[height + 0]? = some raw := hraw
      rw [UtxoStore.followed_succ hraw']
      rfl
  | succ count ih =>
      rw [UtxoStore.followed, ih, show height + 1 + count = height + (count + 1) by omega]
      conv_rhs => rw [UtxoStore.followed]

theorem UtxoStore.Live.follow (h : s.Live) (height : Nat) (raw : RawBlock) :
    (s.follow D height raw).Live := by
  unfold UtxoStore.follow
  split
  · exact (h.advanced _ _).setTip _
  · exact h

theorem UtxoStore.Live.followed (h : s.Live) (height count : Nat) :
    (s.followed D B height count).Live := by
  induction count with
  | zero => exact h
  | succ count ih =>
      unfold UtxoStore.followed
      split
      · exact ih.follow _ _
      · exact ih

theorem UtxoStore.follow_utxo (s : UtxoStore) (height : Nat) (raw : RawBlock) :
    (s.follow D height raw).db.utxo = tableStep D height raw s.db.utxo := by
  unfold UtxoStore.follow tableStep
  cases parseAt D raw height <;> rfl

/-- On the way the tip record is that of the last block applied. -/
theorem tip_followed (hvalid : ValidChain D B) {tip : TipState} (hs : s.tip = some tip)
    (htip : TipOn D B height tip) (hlen : height + 1 + count ≤ B.length) :
    ∃ tip', (s.followed D B (height + 1) count).tip = some tip' ∧
      TipOn D B (height + count) tip' := by
  cases count with
  | zero => exact ⟨tip, hs, htip⟩
  | succ count =>
      have hraw : B[height + 1 + count]? = some _ := List.getElem?_eq_getElem (by omega)
      obtain ⟨block, hparse, -⟩ := hvalid.valid _ _ hraw
      rw [UtxoStore.followed_succ hraw, UtxoStore.tip_follow hparse]
      rw [show height + (count + 1) = height + 1 + count by omega]
      exact ⟨_, rfl, _, hraw, rfl⟩

/-- From the table of the beginning of `B` to the table of a longer beginning. -/
theorem followed_utxo (hs : s.db.utxo = replay D (B.take height))
    (hlen : height + count ≤ B.length) :
    (s.followed D B height count).db.utxo = replay D (B.take (height + count)) := by
  induction count with
  | zero => exact hs
  | succ count ih =>
      have hraw : B[height + count]? = some _ := List.getElem?_eq_getElem (by omega)
      rw [UtxoStore.followed_succ hraw, UtxoStore.follow_utxo, ih (by omega), ← Nat.add_assoc,
        replay_take_succ D hraw]

theorem followed_utxo_end (hs : s.db.utxo = replay D (B.take height)) (hlen : height ≤ B.length) :
    (s.followed D B height (B.length - height)).db.utxo = replay D B := by
  rw [followed_utxo hs (by omega), show height + (B.length - height) = B.length by omega,
    List.take_length]

theorem tip_followed_end (hvalid : ValidChain D B) {tip : TipState} (hs : s.tip = some tip)
    (htip : TipOn D B height tip) :
    ∃ tip', (s.followed D B (height + 1) (B.length - (height + 1))).tip = some tip' ∧
      TipOn D B (B.length - 1) tip' := by
  have hlt : height < B.length := by
    obtain ⟨raw, hraw, -⟩ := htip
    exact (List.getElem?_eq_some_iff.mp hraw).1
  have hcount : height + 1 + (B.length - (height + 1)) ≤ B.length := by omega
  have hend := tip_followed hvalid hs htip hcount
  rwa [show height + (B.length - (height + 1)) = B.length - 1 by omega] at hend

/-- Each block leaves its undo record, and no other record changes. -/
theorem followed_undo (hvalid : ValidChain D B) (hs : s.db.utxo = replay D (B.take height))
    (hlen : height + count ≤ B.length) (x : UInt32) :
    (s.followed D B height count).db.undo x =
      if height ≤ x.toNat ∧ x.toNat < height + count then undoRecord D B x.toNat
      else s.db.undo x := by
  have hbound := hvalid.length_lt
  induction count with
  | zero =>
      rw [if_neg (by omega)]
      rfl
  | succ count ih =>
      have hraw : B[height + count]? = some _ := List.getElem?_eq_getElem (by omega)
      obtain ⟨block, hparse, -⟩ := hvalid.valid _ _ hraw
      have hnat : (UInt32.ofNat (height + count)).toNat = height + count :=
        toNat_ofNat_height (by omega)
      rw [UtxoStore.followed_succ hraw, UtxoStore.follow_of_parse hparse, UtxoStore.setTip_undo,
        UtxoStore.advanced_undo, followed_utxo hs (by omega)]
      -- The block writes its own record; heights are below `2 ^ 32`, so no other.
      by_cases hx : x = UInt32.ofNat (height + count)
      · subst hx
        rw [Function.update_self, hnat, if_pos (by omega), undoRecord, hraw]
        simp only [hparse]
      · have hne : x.toNat ≠ height + count := mt (eq_ofNat_iff (by omega)).mpr hx
        rw [Function.update_of_ne hx, ih (by omega)]
        by_cases hin : height ≤ x.toNat ∧ x.toNat < height + count
        · rw [if_pos hin, if_pos (by omega)]
        · rw [if_neg hin, if_neg (by omega)]

/-- The records up to the last block applied, by their heights. -/
theorem followed_undo_ofNat (hvalid : ValidChain D B)
    (hs : s.db.utxo = replay D (B.take height)) (hlen : height + count ≤ B.length) {n : Nat}
    (hn : n < height + count) :
    (s.followed D B height count).db.undo (UInt32.ofNat n) =
      if height ≤ n then undoRecord D B n else s.db.undo (UInt32.ofNat n) := by
  have hbound := hvalid.length_lt
  have hnat : (UInt32.ofNat n).toNat = n := toNat_ofNat_height (by omega)
  rw [followed_undo hvalid hs hlen, hnat]
  by_cases hnew : height ≤ n
  · rw [if_pos hnew, if_pos ⟨hnew, hn⟩]
  · rw [if_neg hnew, if_neg fun hin => hnew hin.1]

end Followed

/-! ## One round -/

section Round

variable {D : Digests} {B : List RawBlock} {env : TrackerEnv} {w : World} {tip : TipState}
  {height : Nat} {raw : RawBlock} {block : FullBlock}

theorem ofNat_add_one (n : Nat) : UInt32.ofNat n + 1 = UInt32.ofNat (n + 1) := by
  apply UInt32.toNat_inj.mp
  simp only [UInt32.toNat_add, UInt32.toNat_ofNat', UInt32.toNat_one]
  omega

@[simp] theorem wp_orRpc_ok {α : Type} {Q : α → World → Prop} {E : TrackerStop → World → Prop}
    (a : α) : Fallible.wp (orRpc (.ok a)) Q E w ↔ Q a w := Iff.rfl

@[simp] theorem wp_orRpc_error {α : Type} {Q : α → World → Prop}
    {E : TrackerStop → World → Prop} (e : RpcError) :
    Fallible.wp (orRpc (.error e)) Q E w ↔ E (.rpc e) w := Iff.rfl

/-- Fetching the next block of `B`, unless a call fails. -/
theorem fetchNext_outcome (hdigests : env.digests = D) (hnode : ServesOrFails D B env.node)
    (hraw : B[height + 1]? = some raw) (hparse : parseAt D raw (height + 1) = .ok block)
    (htip : tip.height = UInt32.ofNat height) :
    Fallible.wp (fetchNext env tip)
      (fun next w' => next = (blockHash D raw, block) ∧ w'.store = w.store ∧
        w'.writes = w.writes ∧ w'.events = w.events)
      (fun _ w' => w'.store = w.store ∧ ∃ i, ¬Serves D B (env.node i)) w := by
  have hfail : ∀ i, Fails (env.node i) → ¬Serves D B (env.node i) := by
    intro i hfails hserves
    obtain ⟨e, he⟩ := hfails.blockCount
    rw [hserves.blockCount] at he
    contradiction
  unfold fetchNext
  rw [Fallible.wp_bind]
  change Fallible.wp (orRpc ((env.node w.calls).blockHash (tip.height + 1)) >>= _) _ _ _
  -- The hash first, then the raw block, each answered or not.
  rcases hnode w.calls with hserves | hfails
  · rw [htip, ofNat_add_one, hserves.blockHash _ _ hraw, Fallible.wp_bind]
    change Fallible.wp (orRpc ((env.node (w.calls + 1)).blockRaw (blockHash D raw)) >>= _) _ _ _
    rcases hnode (w.calls + 1) with hserves' | hfails'
    · rw [hserves'.blockRaw raw (List.mem_of_getElem? hraw)]
      simp only [Fallible.wp_bind, parseHeader_of_parseAt hparse, wp_orRpc_ok]
      have hparse' : parseBlockFull env.digests raw (UInt32.ofNat (height + 1)) (blockHash D raw)
          (BlockHeader.parse (headerOf raw)) = .ok block := by
        rw [hdigests]
        exact hparse
      simp only [hparse', Fallible.wp_ofExcept_ok, Fallible.wp_pure, and_self]
    · obtain ⟨e, he⟩ := hfails'.blockRaw (blockHash D raw)
      rw [he]
      exact ⟨rfl, _, hfail _ hfails'⟩
  · obtain ⟨e, he⟩ := hfails.blockHash (tip.height + 1)
    rw [he]
    exact ⟨rfl, _, hfail _ hfails⟩

/-- A durable write goes through, or leaves everything as it was. -/
theorem durable_outcome {α : Type} {op : UtxoStore → Except (Stop UtxoError) α × UtxoStore}
    {a : α} {store : UtxoStore} (hop : op w.store = (.ok a, store)) :
    Fallible.wp (durable env op)
      (fun b w' => b = a ∧ env.writeFault w.writes = none ∧
        w' = { w with store, writes := w.writes + 1 })
      (fun _ w' => w' = w ∧ env.writeFault w.writes ≠ none) w := by
  unfold Fallible.wp durable
  rw [hop]
  rcases env.writeFault w.writes with _ | (_ | _) <;> simp

/-- The event of a block applied over a table. -/
def appliedEvent (D : Digests) (height : Nat) (raw : RawBlock) (block : FullBlock) (S : Table) :
    TrackerEvent × Option FullBlock :=
  (.applied (UInt32.ofNat height) (blockHash D raw)
      (spendResult (UInt32.ofNat height) block S).spends,
    some (fillFees block (spendResult (UInt32.ofNat height) block S).fees))

/-- A round of the forward loop applies the next block of `B` and moves the tip to
it, or stops before the block or between the two writes. -/
theorem forwardRound_outcome (hdigests : env.digests = D) (hnode : ServesOrFails D B env.node)
    (hlive : w.store.Live) (hraw : B[height + 1]? = some raw)
    (hparse : parseAt D raw (height + 1) = .ok block) (htip : tip.height = UInt32.ofNat height) :
    Fallible.wp (forwardRound env tip)
      (fun tip' w' => tip' = tipOf D (height + 1) raw ∧
        w'.store = w.store.follow D (height + 1) raw ∧ w'.writes = w.writes + 2 ∧
        w'.events = w.events ++ [appliedEvent D (height + 1) raw block w.store.db.utxo])
      (fun _ w' =>
        (w'.store = w.store ∧
          ((∃ i, ¬Serves D B (env.node i)) ∨ env.writeFault w.writes ≠ none)) ∨
        (w'.store = w.store.advanced (UInt32.ofNat (height + 1)) block ∧
          env.writeFault (w.writes + 1) ≠ none)) w := by
  unfold forwardRound
  refine Fallible.wp_seq (Fallible.wp_mono
    (fetchNext_outcome hdigests hnode hraw hparse htip) (fun _ _ h => h) ?_) ?_
  · rintro e w' ⟨hstore, hfail⟩
    exact .inl ⟨hstore, .inl hfail⟩
  · rintro _ w₁ ⟨rfl, hstore₁, hwrites₁, hevents₁⟩
    have hlive₁ : w₁.store.Live := hstore₁ ▸ hlive
    rw [htip, ofNat_add_one]
    unfold applyBlock
    simp only [Fallible.wp_bind, Fallible.wp_modify, Fallible.wp_read]
    have hres := applyFull_live_result (env.orders w₁.writes) hlive₁ (UInt32.ofNat (height + 1))
      (parseAt_shape hparse)
    refine Fallible.wp_mono (durable_outcome hres) ?_ ?_
    · rintro _ w₂ ⟨rfl, -, rfl⟩
      refine Fallible.wp_mono (durable_outcome rfl) ?_ ?_
      · rintro _ w₃ ⟨-, -, rfl⟩
        refine ⟨rfl, ?_, ?_, ?_⟩
        · rw [UtxoStore.follow_of_parse hparse, ← hstore₁]
          rfl
        · change w₁.writes + 1 + 1 = w.writes + 2
          rw [hwrites₁]
        · rw [← hevents₁, ← hstore₁]
          rfl
      · rintro _ w₃ ⟨rfl, hfault⟩
        refine .inr ⟨?_, ?_⟩
        · rw [← hstore₁]
        · rw [← hwrites₁]
          exact hfault
    · rintro _ w₂ ⟨rfl, hfault⟩
      refine .inl ⟨hstore₁, .inr ?_⟩
      rw [← hwrites₁]
      exact hfault

end Round

/-! ## The loop -/

section Loop

variable {D : Digests} {B : List RawBlock} {env : TrackerEnv} {w : World} {tip : TipState}
  {height : Nat}

/-- How the loop can stop early: `done` blocks are followed, and the next write was
cut off or a call failed; or the next block is applied without its tip record. -/
def StoppedForward (D : Digests) (B : List RawBlock) (env : TrackerEnv) (w : World)
    (height : Nat) (w' : World) : Prop :=
  ∃ done, height + 1 + done < B.length ∧
    ((w'.store = w.store.followed D B (height + 1) done ∧
      ((∃ i, ¬Serves D B (env.node i)) ∨ env.writeFault (w.writes + 2 * done) ≠ none)) ∨
    (∃ raw block, B[height + 1 + done]? = some raw ∧
      parseAt D raw (height + 1 + done) = .ok block ∧
      w'.store = (w.store.followed D B (height + 1) done).advanced
        (UInt32.ofNat (height + 1 + done)) block ∧
      env.writeFault (w.writes + 2 * done + 1) ≠ none))

/-- The forward loop up to the tip of `B`. -/
theorem forward_outcome (hdigests : env.digests = D) (hvalid : ValidChain D B)
    (hnode : ServesOrFails D B env.node) (hlive : w.store.Live) (htip : TipOn D B height tip)
    {rounds : Nat} (hlen : height + rounds + 1 = B.length) :
    Fallible.wp (forward env rounds tip)
      (fun last w' => TipOn D B (height + rounds) last ∧
        w'.store = w.store.followed D B (height + 1) rounds)
      (fun _ w' => StoppedForward D B env w height w') w := by
  -- On the rounds, from the first block: a run that stops later has followed one more.
  induction rounds generalizing height tip w with
  | zero => exact ⟨htip, rfl⟩
  | succ rounds ih =>
      have hraw : B[height + 1]? = some _ := List.getElem?_eq_getElem (by omega)
      obtain ⟨block, hparse, -⟩ := hvalid.valid _ _ hraw
      obtain ⟨raw₀, -, rfl⟩ := htip
      rw [forward]
      refine Fallible.wp_seq (Fallible.wp_mono
        (forwardRound_outcome hdigests hnode hlive hraw hparse rfl) (fun _ _ h => h) ?_) ?_
      · -- Stopped in this round: no block is done before it.
        rintro _ w' (⟨hstore, hcause⟩ | ⟨hstore, hcause⟩)
        · exact ⟨0, by omega, .inl ⟨hstore, hcause⟩⟩
        · exact ⟨0, by omega, .inr ⟨_, block, hraw, hparse, hstore, hcause⟩⟩
      · rintro tip₁ w₁ ⟨rfl, hstore₁, hwrites₁, -⟩
        have hlive₁ : w₁.store.Live := hstore₁ ▸ hlive.follow _ _
        have hcons : ∀ count, w₁.store.followed D B (height + 1 + 1) count =
            w.store.followed D B (height + 1) (count + 1) := by
          intro count
          rw [hstore₁, UtxoStore.followed_cons hraw]
        refine Fallible.wp_mono (ih hlive₁ ⟨_, hraw, rfl⟩ (by omega)) ?_ ?_
        · rintro last w' ⟨hlast, hstore⟩
          rw [hcons] at hstore
          rw [show height + (rounds + 1) = height + 1 + rounds by omega]
          exact ⟨hlast, hstore⟩
        · rintro _ w' ⟨done, hdone, hstopped⟩
          refine ⟨done + 1, by omega, ?_⟩
          rw [show height + 1 + (done + 1) = height + 1 + 1 + done by omega,
            show w.writes + 2 * (done + 1) = w₁.writes + 2 * done by omega, ← hcons]
          exact hstopped

end Loop

end Bidx
