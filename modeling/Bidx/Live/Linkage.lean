import Bidx.Live.Reorg

/-!
# Parent links under a changing node

The node's best chain may be another valid chain at every call.  The forward loop
asks for a block by height and applies what it gets; it never compares the
block's `prev_hash` with the stored tip.  The links hold in every run in which
the node, whenever it is asked for the hash above the stored tip, has that tip in
its chain at that moment.
-/

namespace Bidx

open KeyValue Tracker

/-- What a node with best chain `chain` may answer; a call may also fail, and any
block the node knows can be fetched. -/
structure AnswersFrom (D : Digests) (chain : List RawBlock) (view : NodeView) : Prop where
  blockHash : ∀ height hash, view.blockHash height = .ok hash →
    chain[height.toNat]?.map (Bidx.blockHash D) = some hash
  blockRaw : ∀ hash raw, view.blockRaw hash = .ok raw → Bidx.blockHash D raw = hash

/-- A node whose best chain at call `i` is `chains i`, and among whose blocks a hash
stands for one header. -/
structure ChangingNode (D : Digests) (chains : Nat → List RawBlock) (node : Nat → NodeView) :
    Prop where
  valid : ∀ i, ValidChain D (chains i)
  answers : ∀ i, AnswersFrom D (chains i) (node i)
  headers : ∀ i, ∀ c ∈ chains i, ∀ j hash raw, (node j).blockRaw hash = .ok raw →
    blockHash D c = blockHash D raw → headerOf c = headerOf raw

/-- Whenever the hash above the persisted tip was asked for, the node's chain had
that tip. -/
def TipKept (D : Digests) (chains : Nat → List RawBlock) (requests : List HashRequest) : Prop :=
  ∀ req ∈ requests, ∀ tip ∈ req.tip, req.height = tip.height + 1 →
    (chains req.call)[tip.height.toNat]?.map (blockHash D) = some tip.hash

instance (D : Digests) (chains : Nat → List RawBlock) (requests : List HashRequest) :
    Decidable (TipKept D chains requests) :=
  inferInstanceAs (Decidable (∀ req ∈ requests, ∀ tip ∈ req.tip, _ → _))

/-- Every block passed to `apply_block` names the persisted tip as its parent. -/
def ParentLinked (calls : List ApplyRequest) : Prop :=
  ∀ call ∈ calls, call.tip.map TipState.hash = some call.block.blockRow.prevHash

instance (calls : List ApplyRequest) : Decidable (ParentLinked calls) :=
  inferInstanceAs (Decidable (∀ call ∈ calls, _))

/-- The links hold so far, if the tip was kept so far. -/
def LinkedSoFar (D : Digests) (chains : Nat → List RawBlock) (w : World) : Prop :=
  TipKept D chains w.requests → ParentLinked w.applyRequests

section Steps

variable {D : Digests} {chains : Nat → List RawBlock} {env : TrackerEnv} {w : World}
  {tip : TipState}

theorem TipKept.of_append {requests requests' : List HashRequest}
    (h : TipKept D chains (requests ++ requests')) : TipKept D chains requests :=
  fun req hreq => h req (List.mem_append_left _ hreq)

/-- Asking keeps the invariant. -/
theorem LinkedSoFar.asked (h : LinkedSoFar D chains w) (height : UInt32) :
    LinkedSoFar D chains (w.asked height) := fun hkept => h hkept.of_append

/-- A durable operation, whatever comes of it. -/
theorem wp_durable_of {α : Type} {op : UtxoStore → Except (Stop UtxoError) α × UtxoStore}
    {Q : α → World → Prop} {E : TrackerStop → World → Prop}
    (hok : ∀ a store, op w.store = (.ok a, store) →
      Q a { w with store, writes := w.writes + 1 })
    (hstop : ∀ e store, E e { w with store }) : Fallible.wp (durable env op) Q E w := by
  unfold Fallible.wp durable
  rcases hop : op w.store with ⟨e | a, store⟩
  · exact hstop _ store
  · rcases hfault : env.writeFault w.writes with _ | (_ | _)
    · exact hok a store hop
    · exact hstop _ w.store
    · exact hstop _ w.store

theorem tip_disconnectBlock (s : UtxoStore) (faults : RocksFaults) (height : UInt32) :
    (s.disconnectBlock faults height).2.tip = s.tip := by
  unfold UtxoStore.disconnectBlock
  split
  · rfl
  · split
    · rfl
    · split
      · rfl
      · split <;> rfl

theorem parseHeader_eq_ok {raw : RawBlock} {header : BlockHeader × Bytes blockHeaderLen}
    (h : parseHeader raw = .ok header) : header.1 = BlockHeader.parse (headerOf raw) := by
  unfold parseHeader at h
  split at h
  · contradiction
  · obtain rfl := Except.ok.inj h
    rfl

/-- What the node gave for a height: the hash at one call, the block at the next. -/
structure Fetched (env : TrackerEnv) (call : Nat) (height : UInt32) (next : Hash32 × FullBlock) :
    Prop where
  hash : (env.node call).blockHash height = .ok next.1
  block : ∃ raw header, (env.node (call + 1)).blockRaw next.1 = .ok raw ∧
    parseHeader raw = .ok header ∧
    parseBlockFull env.digests raw height next.1 header.1 = .ok next.2

/-- Everything the fetch of a block can do. -/
theorem fetchNext_fetched : Fallible.wp (fetchNext env tip)
    (fun next w' => w' = { w.asked (tip.height + 1) with calls := w.calls + 2 } ∧
      Fetched env w.calls (tip.height + 1) next)
    (fun _ w' => ∃ calls, w' = { w.asked (tip.height + 1) with calls }) w := by
  unfold fetchNext
  rw [Fallible.wp_bind]
  change Fallible.wp (orRpc ((env.node w.calls).blockHash (tip.height + 1)) >>= _) _ _
    (w.asked (tip.height + 1))
  cases hhash : (env.node w.calls).blockHash (tip.height + 1) with
  | error e => exact ⟨_, rfl⟩
  | ok hash =>
      rw [Fallible.wp_bind, wp_orRpc_ok, Fallible.wp_bind]
      change Fallible.wp (orRpc ((env.node (w.calls + 1)).blockRaw hash) >>= _) _ _
        { w.asked (tip.height + 1) with calls := w.calls + 1 + 1 }
      cases hraw : (env.node (w.calls + 1)).blockRaw hash with
      | error e => exact ⟨_, rfl⟩
      | ok raw =>
          rw [Fallible.wp_bind, wp_orRpc_ok, Fallible.wp_bind]
          cases hheader : parseHeader raw with
          | error e => exact ⟨_, rfl⟩
          | ok header =>
              rw [wp_orRpc_ok, Fallible.wp_bind]
              cases hblock : parseBlockFull env.digests raw (tip.height + 1) hash header.1 with
              | error e => exact ⟨_, rfl⟩
              | ok block =>
                  rw [Fallible.wp_ofExcept_ok]
                  exact ⟨rfl, hhash, raw, header, hraw, hheader, hblock⟩

/-- The block fetched for the height above the tip names the tip, if the node still
had it when asked. -/
theorem fetchNext_linked (hnode : ChangingNode D chains env.node)
    (hlt : tip.height.toNat + 1 < 2 ^ 32) (htip : w.store.tip = some tip)
    (hlinked : LinkedSoFar D chains w) :
    Fallible.wp (fetchNext env tip)
      (fun next w' => w'.store = w.store ∧ LinkedSoFar D chains w' ∧
        (TipKept D chains w'.requests → next.2.blockRow.prevHash = tip.hash))
      (fun _ w' => LinkedSoFar D chains w') w := by
  have hnext : (tip.height + 1).toNat = tip.height.toNat + 1 := by
    rw [UInt32.toNat_add, UInt32.toNat_one, Nat.mod_eq_of_lt hlt]
  have hasked := hlinked.asked (tip.height + 1)
  refine Fallible.wp_mono fetchNext_fetched ?_ ?_
  · rintro ⟨hash, block⟩ _ ⟨rfl, hhash, raw, header, hraw, hheader, hblock⟩
    refine ⟨rfl, hasked, fun hkept => ?_⟩
    -- The chain asked has the tip below the block it named.
    have hbelow := hkept ⟨w.calls, w.store.tip, tip.height + 1⟩
      (List.mem_append_right _ List.mem_cons_self) tip htip rfl
    obtain ⟨parent, hparent, hparentHash⟩ := Option.map_eq_some_iff.mp hbelow
    obtain ⟨child, hchild, hchildHash⟩ := Option.map_eq_some_iff.mp
      ((hnode.answers w.calls).blockHash _ _ hhash)
    rw [hnext] at hchild
    have hlink := (hnode.valid w.calls).linked _ _ _ hparent hchild
    have hrawHash := (hnode.answers _).blockRaw hash raw hraw
    have hsame := hnode.headers w.calls child (List.mem_of_getElem? hchild) _ hash
      raw hraw (hchildHash.trans hrawHash.symm)
    change block.blockRow.prevHash = tip.hash
    rw [(parseBlockFull_shape hblock).2.2.1, parseHeader_eq_ok hheader, ← hsame,
      ← hparentHash, ← hlink]
    rfl
  · rintro _ _ ⟨calls, rfl⟩
    exact hasked

/-- A round of the forward loop. -/
theorem forwardRound_linked (hnode : ChangingNode D chains env.node)
    (hlt : tip.height.toNat + 1 < 2 ^ 32) (htip : w.store.tip = some tip)
    (hlinked : LinkedSoFar D chains w) :
    Fallible.wp (forwardRound env tip)
      (fun tip' w' => tip'.height = tip.height + 1 ∧ w'.store.tip = some tip' ∧
        LinkedSoFar D chains w')
      (fun _ w' => LinkedSoFar D chains w') w := by
  unfold forwardRound
  refine Fallible.wp_seq (fetchNext_linked hnode hlt htip hlinked) ?_
  rintro ⟨hash, block⟩ w₁ ⟨hstore₁, hlinked₁, hprev⟩
  have happend : LinkedSoFar D chains { w₁ with
      applyRequests := w₁.applyRequests ++ [⟨w₁.store.tip, tip.height + 1, block⟩] } := by
    intro hkept call hcall
    rcases List.mem_append.mp hcall with hold | hnew
    · exact hlinked₁ hkept call hold
    · obtain rfl := List.mem_singleton.mp hnew
      change w₁.store.tip.map TipState.hash = some block.blockRow.prevHash
      rw [hstore₁, htip, hprev hkept]
      rfl
  rw [Fallible.wp_bind, applyBlock]
  simp only [Fallible.wp_bind, Fallible.wp_modify, Fallible.wp_read]
  refine wp_durable_of ?_ fun _ _ => happend
  intro res store _
  refine wp_durable_of ?_ fun _ _ => happend
  rintro _ store' hset
  obtain ⟨-, rfl⟩ := Prod.mk.inj hset
  exact ⟨rfl, UtxoStore.tip_setTip _ _, happend⟩

/-- The forward loop. -/
theorem forward_linked (hnode : ChangingNode D chains env.node) {rounds : Nat}
    (hlt : tip.height.toNat + rounds < 2 ^ 32) (htip : w.store.tip = some tip)
    (hlinked : LinkedSoFar D chains w) :
    Fallible.wp (forward env rounds tip) (fun _ w' => LinkedSoFar D chains w')
      (fun _ w' => LinkedSoFar D chains w') w := by
  induction rounds generalizing tip w with
  | zero => exact hlinked
  | succ rounds ih =>
      rw [forward]
      refine Fallible.wp_seq (forwardRound_linked hnode (by omega) htip hlinked) ?_
      rintro tip₁ w₁ ⟨hheight, htip₁, hlinked₁⟩
      refine ih ?_ htip₁ hlinked₁
      rw [hheight, UInt32.toNat_add, UInt32.toNat_one]
      omega

theorem disconnectTip_linked {disconnects : Nat} (htip : w.store.tip = some tip)
    (hlinked : LinkedSoFar D chains w) :
    Fallible.wp (disconnectTip env disconnects tip)
      (fun _ w' => w'.store.tip = some tip ∧ LinkedSoFar D chains w')
      (fun _ w' => LinkedSoFar D chains w') w := by
  refine wp_disconnectTip_of fun _ events => wp_durable_of ?_ fun _ _ => hlinked
  intro _ store hop _
  have hsame := tip_disconnectBlock w.store .none tip.height
  rw [hop] at hsame
  exact ⟨hsame.trans htip, hlinked⟩

theorem stepBack_linked (hlinked : LinkedSoFar D chains w) :
    Fallible.wp (stepBack env tip)
      (fun prev w' => w'.store.tip = some prev ∧ LinkedSoFar D chains w')
      (fun _ w' => LinkedSoFar D chains w') w := by
  have hasked := hlinked.asked (tip.height - 1)
  cases hanswer : (env.node w.calls).blockHash (tip.height - 1) with
  | error e =>
      rw [stepBack_error hanswer]
      exact hasked
  | ok hash =>
      unfold stepBack
      rw [Fallible.wp_bind]
      change Fallible.wp (orRpc ((env.node w.calls).blockHash (tip.height - 1)) >>= _) _ _
        (w.asked (tip.height - 1))
      rw [hanswer, Fallible.wp_bind, wp_orRpc_ok, Fallible.wp_bind]
      refine wp_durable_of ?_ fun _ _ => hasked
      rintro _ store hset
      obtain ⟨-, rfl⟩ := Prod.mk.inj hset
      exact ⟨UtxoStore.tip_setTip _ _, hasked⟩

/-- The walk back applies nothing; it leaves with its tip persisted. -/
theorem walkBack_linked {rounds disconnects : Nat} (htip : w.store.tip = some tip)
    (hlinked : LinkedSoFar D chains w) :
    Fallible.wp (Tracker.walkBack env rounds disconnects tip)
      (fun tip' w' => w'.store.tip = some tip' ∧ LinkedSoFar D chains w')
      (fun _ w' => LinkedSoFar D chains w') w := by
  induction rounds generalizing disconnects tip w with
  | zero => exact ⟨htip, hlinked⟩
  | succ rounds ih =>
      have hasked := hlinked.asked tip.height
      rw [Tracker.walkBack, Fallible.wp_bind, wp_walkRound]
      split
      · exact ⟨htip, hasked⟩
      · split
        · exact hasked
        · refine Fallible.wp_mono (disconnectTip_linked htip hasked) ?_ fun _ _ h => h
          rintro _ w₁ ⟨htip₁, hlinked₁⟩
          refine Fallible.wp_mono (stepBack_linked hlinked₁) ?_ fun _ _ h => h
          rintro prev w₂ ⟨htip₂, hlinked₂⟩
          exact ih htip₂ hlinked₂

theorem startAtNodeTip_linked {nodeTip : UInt32} (hlinked : LinkedSoFar D chains w) :
    Fallible.wp (startAtNodeTip env nodeTip) (fun _ w' => LinkedSoFar D chains w')
      (fun _ w' => LinkedSoFar D chains w') w := by
  have hasked := hlinked.asked nodeTip
  unfold startAtNodeTip
  rw [Fallible.wp_bind]
  change Fallible.wp (orRpc ((env.node w.calls).blockHash nodeTip) >>= _) _ _ (w.asked nodeTip)
  cases (env.node w.calls).blockHash nodeTip with
  | error e => exact hasked
  | ok hash =>
      rw [Fallible.wp_bind, wp_orRpc_ok, Fallible.wp_bind]
      exact wp_durable_of (fun _ _ _ => hasked) fun _ _ => hasked

theorem reconcile_linked (hnode : ChangingNode D chains env.node) {nodeTip : UInt32}
    (htip : w.store.tip = some tip) (hlinked : LinkedSoFar D chains w) :
    Fallible.wp (reconcile env nodeTip tip) (fun _ w' => LinkedSoFar D chains w')
      (fun _ w' => LinkedSoFar D chains w') w := by
  unfold reconcile
  refine Fallible.wp_seq (walkBack_linked htip hlinked) ?_
  rintro ancestor w₁ ⟨htip₁, hlinked₁⟩
  have hbound := UInt32.toNat_lt nodeTip
  have hbound' := UInt32.toNat_lt ancestor.height
  unfold applyForward
  exact Fallible.wp_seq (forward_linked hnode (by omega) htip₁ hlinked₁) fun _ _ h => h

end Steps

/-- In every run against a changing node in which the stored tip is on the node's
chain whenever the block above it is asked for, every applied block names the
stored tip as its parent. -/
theorem catchUp_parentLinked_of_tipKept (env : TrackerEnv) (chains : Nat → List RawBlock)
    (s : UtxoStore) (hnode : ChangingNode env.digests chains env.node)
    (hkept : TipKept env.digests chains (catchUp env (.start s)).2.requests) :
    ParentLinked (catchUp env (.start s)).2.applyRequests := by
  have hstart : LinkedSoFar env.digests chains (.start s) := fun _ call hcall => by
    contradiction
  have hrun : Fallible.wp (catchUp env) (fun _ w' => LinkedSoFar env.digests chains w')
      (fun _ w' => LinkedSoFar env.digests chains w') (.start s) := by
    unfold catchUp
    rw [Fallible.wp_bind]
    change Fallible.wp (orRpc (env.node 0).blockCount >>= _) _ _
      { World.start s with calls := 1 }
    cases (env.node 0).blockCount with
    | error e => exact hstart
    | ok nodeTip =>
        have hstore : ({ World.start s with calls := 1 } : World).store.tip = s.tip := rfl
        rw [Fallible.wp_bind, wp_orRpc_ok, Fallible.wp_bind, Fallible.wp_read, hstore]
        cases htip : s.tip with
        | none => exact startAtNodeTip_linked hstart
        | some tip => exact reconcile_linked hnode htip hstart
  rcases hcatch : catchUp env (.start s) with ⟨e | a, w'⟩
  · rw [hcatch] at hkept
    exact Fallible.of_wp_error hrun hcatch hkept
  · rw [hcatch] at hkept
    exact Fallible.of_wp_ok hrun hcatch hkept

/-! A node that serves the old branch throughout; and one that changes from the old
branch to the new one after the first block was fetched. -/

theorem answersFrom_serving {D : Digests} {chain : List RawBlock} :
    AnswersFrom D chain (serving D chain) where
  blockHash := by
    intro height hash hanswer
    cases hraw : chain[height.toNat]? with
    | none => simp [serving, hraw] at hanswer
    | some raw =>
        simp only [serving, hraw, Except.ok.injEq] at hanswer
        rw [← hanswer]
        rfl
  blockRaw := by
    intro hash raw hanswer
    cases hfind : chain.find? fun raw => blockHash D raw = hash with
    | none => simp [serving, hfind] at hanswer
    | some raw' =>
        simp only [serving, hfind, Except.ok.injEq] at hanswer
        rw [← hanswer]
        simpa using List.find?_some hfind

/-- Chains among which equal hashes mean equal headers make a changing node. -/
theorem changingNode_serving {D : Digests} {chains : Nat → List RawBlock}
    (hvalid : ∀ i, ValidChain D (chains i))
    (hheaders : ∀ i j, ∀ c ∈ chains i, ∀ d ∈ chains j, blockHash D c = blockHash D d →
      headerOf c = headerOf d) :
    ChangingNode D chains fun i => serving D (chains i) where
  valid := hvalid
  answers _ := answersFrom_serving
  headers := by
    intro i c hc j hash raw hraw hhash
    cases hfind : (chains j).find? fun raw => blockHash D raw = hash with
    | none => simp [serving, hfind] at hraw
    | some raw' =>
        simp only [serving, hfind, Except.ok.injEq] at hraw
        subst hraw
        exact hheaders i j c hc _ (List.mem_of_find?_eq_some hfind) hhash

/-- The best chain of a node that changes from the old branch to the new one at its
fifth call. -/
def changingChains (i : Nat) : List RawBlock := if i < 4 then oldChain else newChain

def changingEnv (chains : Nat → List RawBlock) : TrackerEnv :=
  { quietEnv treeDigests newChain with node := fun i => serving treeDigests (chains i) }

theorem changingChains_mem (i : Nat) :
    changingChains i = oldChain ∨ changingChains i = newChain := by
  unfold changingChains
  split
  · exact .inl rfl
  · exact .inr rfl

theorem tree_headers : ∀ c ∈ oldChain ++ newChain, ∀ d ∈ oldChain ++ newChain,
    blockHash treeDigests c = blockHash treeDigests d → headerOf c = headerOf d := by
  decide +kernel

theorem catchUp_parentLinked_of_tipKept_sample :
    (catchUp (changingEnv fun _ => oldChain)
      (.start (chainStore treeDigests (oldChain.take 1)))).2.applyRequests.length = 2 ∧
    ParentLinked (catchUp (changingEnv fun _ => oldChain)
      (.start (chainStore treeDigests (oldChain.take 1)))).2.applyRequests := by
  refine ⟨by decide +kernel, catchUp_parentLinked_of_tipKept _ (fun _ => oldChain) _ ?_
    (by decide +kernel)⟩
  refine changingNode_serving (fun _ => oldChain_valid) ?_
  intro _ _ c hc d hd
  exact tree_headers c (List.mem_append_left _ hc) d (List.mem_append_left _ hd)

/-- The second new block is applied on top of the first old one. -/
theorem catchUp_applies_unlinked_block :
    ChangingNode treeDigests changingChains (changingEnv changingChains).node ∧
    (catchUp (changingEnv changingChains)
      (.start (chainStore treeDigests (oldChain.take 1)))).1 = .ok () ∧
    ¬ParentLinked (catchUp (changingEnv changingChains)
      (.start (chainStore treeDigests (oldChain.take 1)))).2.applyRequests := by
  refine ⟨changingNode_serving ?_ ?_, by decide +kernel, by decide +kernel⟩
  · intro i
    rcases changingChains_mem i with h | h
    · rw [h]
      exact oldChain_valid
    · rw [h]
      exact newChain_valid
  · intro i j c hc d hd
    have hmem : ∀ i, ∀ c ∈ changingChains i, c ∈ oldChain ++ newChain := by
      intro i c hc
      rcases changingChains_mem i with h | h
      · exact List.mem_append_left _ (h ▸ hc)
      · exact List.mem_append_right _ (h ▸ hc)
    exact tree_headers c (hmem i c hc) d (hmem j d hd)

end Bidx
