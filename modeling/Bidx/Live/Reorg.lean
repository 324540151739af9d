import Bidx.Live.Follow

/-!
# Reorganisations

The walk back disconnects the stored tip when the node has another block at its
height, and then takes the node's own hash for the height below.  The next
comparison is of that hash with itself, so the loop is left after one
disconnected block, however deep the fork is.

What follows is exact.  With the tip of the old chain `A` at height `h`, the run
against a node that serves `B` ends on `B` if and only if `B` reaches height
`h - 1` and the two chains, cut before `h`, leave the same UTXO table up to what
the blocks of `B` from `h` on decide themselves.
-/

namespace Bidx

open KeyValue Tracker

/-! ## Chains that share a hash -/

/-- Valid chains with the same hash at one height agree up to there. -/
theorem ValidChain.take_eq_of_hash {D : Digests} {A B : List RawBlock} (hA : ValidChain D A)
    (hB : ValidChain D B) (hshared : SharedHashes D A B) {height : Nat} {a b : RawBlock}
    (ha : A[height]? = some a) (hb : B[height]? = some b) (hhash : blockHash D a = blockHash D b) :
    A.take (height + 1) = B.take (height + 1) := by
  obtain rfl : a = b :=
    hshared a (List.mem_of_getElem? ha) b (List.mem_of_getElem? hb) hhash
  induction height generalizing a with
  | zero => rw [List.take_add_one, List.take_add_one, ha, hb, List.take_zero, List.take_zero]
  | succ height ih =>
      have hltA : height + 1 < A.length := (List.getElem?_eq_some_iff.mp ha).1
      have hltB : height + 1 < B.length := (List.getElem?_eq_some_iff.mp hb).1
      have ha' : A[height]? = some _ := List.getElem?_eq_getElem (by omega)
      have hb' : B[height]? = some _ := List.getElem?_eq_getElem (by omega)
      -- The parents have the hash the common child names.
      have hparent : blockHash D A[height] = blockHash D B[height] := by
        rw [← hA.linked height _ _ ha' ha, ← hB.linked height _ _ hb' hb]
      have hsame := hshared _ (List.mem_of_getElem? ha') _ (List.mem_of_getElem? hb') hparent
      rw [← hsame] at hb'
      have hbelow := ih ha' hb' rfl
      rw [List.take_add_one, ha, hbelow, List.take_add_one (l := B) (i := height + 1), hb]

/-! ## The walk back -/

/-- The world after a `getblockhash` call. -/
def World.asked (w : World) (height : UInt32) : World :=
  { w with
    calls := w.calls + 1
    requests := w.requests ++ [⟨w.calls, w.store.tip, height⟩] }

section WalkBack

variable {env : TrackerEnv} {w : World} {tip : TipState} {disconnects : Nat}

/-- The node's answer to the next call has the tip at its height. -/
def HasTip (env : TrackerEnv) (w : World) (tip : TipState) : Prop :=
  (env.node w.calls).blockHash tip.height = .ok tip.hash ∧ tip.hash ≠ Hash32.zero

instance (env : TrackerEnv) (w : World) (tip : TipState) : Decidable (HasTip env w tip) :=
  inferInstanceAs (Decidable (_ ∧ _))

/-- The test of the loop; an error never passes it. -/
theorem hasTip_iff : HasTip env w tip ↔
    ((env.node w.calls).blockHash tip.height).toOption.getD Hash32.zero = tip.hash ∧
      ((env.node w.calls).blockHash tip.height).toOption.getD Hash32.zero ≠ Hash32.zero := by
  unfold HasTip
  cases (env.node w.calls).blockHash tip.height with
  | error e => simp [Except.toOption]
  | ok hash =>
      simp only [Except.ok.injEq, Except.toOption, Option.getD_some]
      constructor
      · rintro ⟨rfl, hne⟩
        exact ⟨rfl, hne⟩
      · rintro ⟨rfl, hne⟩
        exact ⟨rfl, hne⟩

/-- Everything a round can do. -/
theorem wp_walkRound {Q : Option TipState → World → Prop} {E : TrackerStop → World → Prop} :
    Fallible.wp (walkRound env disconnects tip) Q E w ↔
      if HasTip env w tip ∨ tip.height = 0 then Q none (w.asked tip.height)
      else if env.maxReorgDepth ≤ disconnects then
        E (.reorgTooDeep disconnects) (w.asked tip.height)
      else
        Fallible.wp (disconnectTip env disconnects tip)
          (fun _ w' => Fallible.wp (stepBack env tip) (fun prev => Q (some prev)) E w') E
          (w.asked tip.height) := by
  unfold walkRound
  rw [Fallible.wp_bind]
  change Fallible.wp (if _ then _ else _) Q E (w.asked tip.height) ↔ _
  by_cases hhas : HasTip env w tip
  · rw [if_pos (hasTip_iff.mp hhas), if_pos (.inl hhas)]
    rfl
  · rw [if_neg (fun h => hhas (hasTip_iff.mpr h))]
    by_cases hzero : tip.height = 0
    · rw [if_pos hzero, if_pos (.inr hzero)]
      rfl
    · have hgo : ¬(HasTip env w tip ∨ tip.height = 0) := not_or.mpr ⟨hhas, hzero⟩
      rw [if_neg hzero, if_neg hgo]
      by_cases hdeep : env.maxReorgDepth ≤ disconnects
      · rw [if_pos hdeep, if_pos hdeep]
        rfl
      · rw [if_neg hdeep, if_neg hdeep]
        simp only [Fallible.wp_bind, Fallible.wp_pure]

/-- The loop is left where the node has the tip. -/
theorem wp_walkBack_of_hasTip {Q : TipState → World → Prop} {E : TrackerStop → World → Prop}
    {rounds : Nat} (hrounds : 0 < rounds) (hhas : HasTip env w tip) :
    Fallible.wp (Tracker.walkBack env rounds disconnects tip) Q E w ↔
      Q tip (w.asked tip.height) := by
  obtain ⟨rounds, rfl⟩ := Nat.exists_eq_succ_of_ne_zero hrounds.ne'
  rw [Tracker.walkBack, Fallible.wp_bind, wp_walkRound, if_pos (.inl hhas)]
  rfl

/-- The call is logged before it is made. -/
theorem wp_disconnectBlock {Q : Unit → World → Prop} {E : TrackerStop → World → Prop}
    {height : UInt32} :
    Fallible.wp (disconnectBlock env height) Q E w ↔
      Fallible.wp (durable env fun store => store.disconnectBlock .none height) Q E { w with
        disconnectRequests := w.disconnectRequests ++ [⟨w.store.tip, height⟩] } := by
  unfold disconnectBlock
  rw [Fallible.wp_bind, Fallible.wp_modify]

/-- The logs around a disconnect touch nothing else. -/
theorem wp_disconnectTip_of {Q : Unit → World → Prop} {E : TrackerStop → World → Prop}
    (h : ∀ disconnectRequests events,
      Fallible.wp (durable env fun store => store.disconnectBlock .none tip.height)
        (fun _ w' => ∀ events', Q () { w' with events := events' }) E
        { w with disconnectRequests, events }) :
    Fallible.wp (disconnectTip env disconnects tip) Q E w := by
  have hrest : ∀ events, Fallible.wp (do
      disconnectBlock env tip.height
      emit (.disconnected tip.height tip.hash) none) Q E { w with events } := by
    intro events
    rw [Fallible.wp_bind, wp_disconnectBlock]
    exact Fallible.wp_mono (h _ events) (fun _ w' hq => hq _) fun _ _ he => he
  unfold disconnectTip
  rw [Fallible.wp_bind, announceReorg]
  split
  · exact hrest _
  · exact hrest w.events

/-- Disconnecting, unless the write is cut off. -/
theorem disconnectTip_outcome {store : UtxoStore}
    (hop : w.store.disconnectBlock .none tip.height = (.ok (), store)) :
    Fallible.wp (disconnectTip env disconnects tip)
      (fun _ w' => w'.store = store ∧ w'.writes = w.writes + 1 ∧ w'.calls = w.calls)
      (fun _ w' => w'.store = w.store ∧ env.writeFault w.writes ≠ none) w := by
  refine wp_disconnectTip_of fun disconnectRequests events => ?_
  refine Fallible.wp_mono (durable_outcome (w := { w with disconnectRequests, events }) hop) ?_ ?_
  · rintro _ w' ⟨-, -, rfl⟩ events'
    exact ⟨rfl, rfl, rfl⟩
  · rintro _ w' ⟨rfl, hfault⟩
    exact ⟨rfl, hfault⟩

/-- Stepping back under the hash the node gives. -/
theorem stepBack_outcome {hash : Hash32}
    (hanswer : (env.node w.calls).blockHash (tip.height - 1) = .ok hash) :
    Fallible.wp (stepBack env tip)
      (fun prev w' => prev = ⟨tip.height - 1, hash⟩ ∧ w'.store = w.store.setTip prev ∧
        w'.writes = w.writes + 1 ∧ w'.calls = w.calls + 1 ∧ env.writeFault w.writes = none)
      (fun _ w' => w'.store = w.store ∧ env.writeFault w.writes ≠ none) w := by
  unfold stepBack
  rw [Fallible.wp_bind]
  change Fallible.wp (orRpc ((env.node w.calls).blockHash (tip.height - 1)) >>= _) _ _
    (w.asked (tip.height - 1))
  rw [hanswer, Fallible.wp_bind]
  change Fallible.wp (setTip env ⟨tip.height - 1, hash⟩ >>= _) _ _ (w.asked (tip.height - 1))
  rw [Fallible.wp_bind]
  refine Fallible.wp_mono (durable_outcome rfl) ?_ ?_
  · rintro _ w₁ ⟨-, hfault, rfl⟩
    exact ⟨rfl, rfl, rfl, rfl, hfault⟩
  · rintro _ w₁ ⟨rfl, hfault⟩
    exact ⟨rfl, hfault⟩

theorem stepBack_error {e : RpcError}
    (hanswer : (env.node w.calls).blockHash (tip.height - 1) = .error e)
    {Q : TipState → World → Prop} {E : TrackerStop → World → Prop} :
    Fallible.wp (stepBack env tip) Q E w ↔ E (.rpc e) (w.asked (tip.height - 1)) := by
  unfold stepBack
  rw [Fallible.wp_bind]
  change Fallible.wp (orRpc ((env.node w.calls).blockHash (tip.height - 1)) >>= _) _ _
    (w.asked (tip.height - 1)) ↔ _
  rw [hanswer]
  rfl

end WalkBack

/-! ## On a chain the node serves -/

section OnChain

variable {D : Digests} {B : List RawBlock} {env : TrackerEnv} {w : World} {tip : TipState}
  {height disconnects : Nat}

theorem HasTip.of_serves (hvalid : ValidChain D B) (hserves : Serves D B (env.node w.calls))
    (htip : TipOn D B height tip) : HasTip env w tip := by
  obtain ⟨raw, hraw, rfl⟩ := htip
  exact ⟨hserves.blockHash height raw hraw, hvalid.hash_ne_zero raw (List.mem_of_getElem? hraw)⟩

/-- The rounds left from a tip on the chain. -/
theorem TipOn.rounds (htip : TipOn D B height tip) (hbound : B.length < 2 ^ 32) :
    height < B.length ∧ (UInt32.ofNat (B.length - 1)).toNat - tip.height.toNat =
      B.length - (height + 1) := by
  obtain ⟨raw, hraw, rfl⟩ := htip
  have hlt : height < B.length := (List.getElem?_eq_some_iff.mp hraw).1
  refine ⟨hlt, ?_⟩
  simp only [tipOf, UInt32.toNat_ofNat']
  omega

/-- From a tip on `B` to the tip of `B`. -/
theorem applyForward_outcome (hdigests : env.digests = D) (hvalid : ValidChain D B)
    (hnode : ServesOrFails D B env.node) (hlive : w.store.Live) (htip : TipOn D B height tip) :
    Fallible.wp (applyForward env (UInt32.ofNat (B.length - 1)) tip)
      (fun _ w' => w'.store = w.store.followed D B (height + 1) (B.length - (height + 1)))
      (fun _ w' => StoppedForward D B env w height w') w := by
  obtain ⟨hlt, hrounds⟩ := htip.rounds hvalid.length_lt
  rw [applyForward, hrounds]
  refine Fallible.wp_seq (forward_outcome hdigests hvalid hnode hlive htip (by omega)) ?_
  rintro last w' ⟨-, hstore⟩
  exact hstore

/-- A store whose tip is on `B` is brought to the tip of `B`. -/
theorem reconcile_onChain (hdigests : env.digests = D) (hvalid : ValidChain D B)
    (hnode : ServesOrFails D B env.node) (hserves : Serves D B (env.node w.calls))
    (hlive : w.store.Live) (htip : TipOn D B height tip) :
    Fallible.wp (reconcile env (UInt32.ofNat (B.length - 1)) tip)
      (fun _ w' => w'.store = w.store.followed D B (height + 1) (B.length - (height + 1)))
      (fun _ w' => StoppedForward D B env w height w') w := by
  unfold reconcile
  rw [Fallible.wp_bind, wp_walkBack_of_hasTip (by omega) (.of_serves hvalid hserves htip)]
  exact applyForward_outcome (w := w.asked tip.height) hdigests hvalid hnode hlive htip

theorem wp_catchUp_of_tip {nodeTip : UInt32} {Q : Unit → World → Prop}
    {E : TrackerStop → World → Prop} (hcount : (env.node w.calls).blockCount = .ok nodeTip)
    (htip : w.store.tip = some tip) :
    Fallible.wp (catchUp env) Q E w ↔
      Fallible.wp (reconcile env nodeTip tip) Q E { w with calls := w.calls + 1 } := by
  unfold catchUp
  rw [Fallible.wp_bind]
  change Fallible.wp (orRpc (env.node w.calls).blockCount >>= _) _ _
    { w with calls := w.calls + 1 } ↔ _
  rw [hcount, Fallible.wp_bind, wp_orRpc_ok, Fallible.wp_bind, Fallible.wp_read, htip]

theorem wp_catchUp_of_noTip {nodeTip : UInt32} {Q : Unit → World → Prop}
    {E : TrackerStop → World → Prop} (hcount : (env.node w.calls).blockCount = .ok nodeTip)
    (htip : w.store.tip = none) :
    Fallible.wp (catchUp env) Q E w ↔
      Fallible.wp (startAtNodeTip env nodeTip) Q E { w with calls := w.calls + 1 } := by
  unfold catchUp
  rw [Fallible.wp_bind]
  change Fallible.wp (orRpc (env.node w.calls).blockCount >>= _) _ _
    { w with calls := w.calls + 1 } ↔ _
  rw [hcount, Fallible.wp_bind, wp_orRpc_ok, Fallible.wp_bind, Fallible.wp_read, htip]

theorem wp_catchUp_of_error {e : RpcError} {Q : Unit → World → Prop}
    {E : TrackerStop → World → Prop} (hcount : (env.node w.calls).blockCount = .error e) :
    Fallible.wp (catchUp env) Q E w ↔ E (.rpc e) { w with calls := w.calls + 1 } := by
  unfold catchUp
  rw [Fallible.wp_bind]
  change Fallible.wp (orRpc (env.node w.calls).blockCount >>= _) _ _
    { w with calls := w.calls + 1 } ↔ _
  rw [hcount, Fallible.wp_bind, wp_orRpc_error]

/-- A run with nothing in its way. -/
structure Undisturbed (D : Digests) (B : List RawBlock) (env : TrackerEnv) : Prop where
  digests : env.digests = D
  serves : ∀ i, Serves D B (env.node i)
  writes : ∀ i, env.writeFault i = none

theorem Undisturbed.servesOrFails (h : Undisturbed D B env) : ServesOrFails D B env.node :=
  fun i => .inl (h.serves i)

theorem Undisturbed.not_stopped (h : Undisturbed D B env) {w' : World} :
    ¬StoppedForward D B env w height w' := by
  rintro ⟨done, -, ⟨-, ⟨i, hi⟩ | hfault⟩ | ⟨-, -, -, -, -, hfault⟩⟩
  · exact hi (h.serves i)
  · exact hfault (h.writes _)
  · exact hfault (h.writes _)

/-- A run from a store whose tip is on `B`. -/
theorem Undisturbed.catchUp_onChain (h : Undisturbed D B env) (hvalid : ValidChain D B)
    (hlive : w.store.Live) (hs : w.store.tip = some tip) (htip : TipOn D B height tip) :
    ∃ w', catchUp env w = (.ok (), w') ∧
      w'.store = w.store.followed D B (height + 1) (B.length - (height + 1)) := by
  have hrun := reconcile_onChain (w := { w with calls := w.calls + 1 }) h.digests hvalid
    h.servesOrFails (h.serves _) hlive htip
  have hreturns := Fallible.wp_mono hrun (fun _ _ hq => hq)
    fun _ _ hstop => (h.not_stopped hstop : False)
  rw [← wp_catchUp_of_tip (h.serves _).blockCount hs] at hreturns
  obtain ⟨_, w', hw', hstore⟩ := Fallible.exists_ok_of_wp hreturns
  exact ⟨w', hw', hstore⟩

end OnChain

/-! ## The table after the run -/

/-- Some block of `B` from `height` on decides what stands at `k`. -/
def DecidedFrom (D : Digests) (B : List RawBlock) (height : Nat) (k : Key) : Prop :=
  ∃ j raw block, height ≤ j ∧ B[j]? = some raw ∧ parseAt D raw j = .ok block ∧ Writes block k

/-- Following `B` from any table, compared with the table of `B` itself. -/
theorem followed_agree_iff {D : Digests} {B : List RawBlock} {s : UtxoStore} {height count : Nat}
    (hvalid : ValidChain D B) (hdec : Table.Decodes s.db.utxo) (hlen : height + count ≤ B.length) :
    Table.Decodes (s.followed D B height count).db.utxo ∧
      ∀ k, (s.followed D B height count).db.utxo k = replay D (B.take (height + count)) k ↔
        (∃ j raw block, height ≤ j ∧ j < height + count ∧ B[j]? = some raw ∧
          parseAt D raw j = .ok block ∧ Writes block k) ∨
        s.db.utxo k = replay D (B.take height) k := by
  induction count with
  | zero =>
      refine ⟨hdec, fun k => ?_⟩
      constructor
      · exact .inr
      · rintro (⟨j, _, _, hle, hlt, -⟩ | heq)
        · omega
        · exact heq
  | succ count ih =>
      obtain ⟨hdec', hagree⟩ := ih (by omega)
      have hraw : B[height + count]? = some _ := List.getElem?_eq_getElem (by omega)
      obtain ⟨block, hparse, hover⟩ := hvalid.valid _ _ hraw
      have hstep : (s.followed D B height (count + 1)).db.utxo =
          blockTable (UInt32.ofNat (height + count)) block
            (s.followed D B height count).db.utxo := by
        rw [UtxoStore.followed_succ hraw, UtxoStore.follow_utxo, tableStep_of_parse hparse,
          tableAfter_eq _ (parseAt_shape hparse) hover.spent_nodup hdec']
      refine ⟨hstep ▸ hdec'.blockTable _ _, fun k => ?_⟩
      rw [hstep, ← Nat.add_assoc, hvalid.replay_succ hraw hparse, blockTable_agree_iff, hagree]
      constructor
      · rintro (hwrites | ⟨j, raw, block', hle, hlt, hj, hparse', hwrites⟩ | heq)
        · exact .inl ⟨height + count, _, block, by omega, by omega, hraw, hparse, hwrites⟩
        · exact .inl ⟨j, raw, block', hle, by omega, hj, hparse', hwrites⟩
        · exact .inr heq
      · rintro (⟨j, raw, block', hle, hlt, hj, hparse', hwrites⟩ | heq)
        · by_cases hlast : j = height + count
          · subst hlast
            obtain rfl := Option.some.inj (hraw.symm.trans hj)
            obtain rfl := Except.ok.inj (hparse.symm.trans hparse')
            exact .inl hwrites
          · exact .inr (.inl ⟨j, raw, block', hle, by omega, hj, hparse', hwrites⟩)
        · exact .inr (.inr heq)

/-- To the end of `B`: what no block decides has to stand there already. -/
theorem followed_utxo_end_iff {D : Digests} {B : List RawBlock} {s : UtxoStore} {height : Nat}
    (hvalid : ValidChain D B) (hdec : Table.Decodes s.db.utxo) (hlen : height ≤ B.length) :
    (s.followed D B height (B.length - height)).db.utxo = replay D B ↔
      ∀ k, ¬DecidedFrom D B height k → s.db.utxo k = replay D (B.take height) k := by
  have hcount : height + (B.length - height) = B.length := by omega
  obtain ⟨-, hagree⟩ := followed_agree_iff hvalid hdec hcount.le
  rw [hcount, List.take_length] at hagree
  constructor
  · intro hutxo k hk
    rcases (hagree k).mp (congrFun hutxo k) with
      ⟨j, b, block, hle, -, hj, hparse, hwrites⟩ | heq
    · exact absurd ⟨j, b, block, hle, hj, hparse, hwrites⟩ hk
    · exact heq
  · intro hstands
    funext k
    rw [hagree k]
    by_cases hk : DecidedFrom D B height k
    · obtain ⟨j, b, block, hle, hj, hparse, hwrites⟩ := hk
      have hlt : j < B.length := (List.getElem?_eq_some_iff.mp hj).1
      exact .inl ⟨j, b, block, hle, hlt, hj, hparse, hwrites⟩
    · exact .inr (hstands k hk)

/-! ## A whole run -/

/-- A live store that holds the table and the tip of `A`, and the undo records of
the heights above `ancestor`. -/
structure HoldsChain (D : Digests) (A : List RawBlock) (ancestor : Nat) (s : UtxoStore) :
    Prop where
  live : s.Live
  utxo : s.db.utxo = replay D A
  tip : ∃ tip, s.tip = some tip ∧ TipOn D A (A.length - 1) tip
  undo : ∀ height, ancestor < height → height < A.length →
    s.db.undo (UInt32.ofNat height) = undoRecord D A height

/-- A run returned with the store on the tip of `B`. -/
structure EndsOn (D : Digests) (B : List RawBlock) (run : Except TrackerStop Unit × World) :
    Prop where
  returned : run.1 = .ok ()
  utxo : run.2.store.db.utxo = replay D B
  tip : ∃ tip, run.2.store.tip = some tip ∧ TipOn D B (B.length - 1) tip

/-- `B` reaches the height below the old tip, and there the two chains leave the
same table, up to what `B` decides from the old tip's height on. -/
def ReorgSafe (D : Digests) (A B : List RawBlock) : Prop :=
  A.length - 1 ≤ B.length ∧ ∀ k, ¬DecidedFrom D B (A.length - 1) k →
    replay D (A.take (A.length - 1)) k = replay D (B.take (A.length - 1)) k

section Run

variable {D : Digests} {A B : List RawBlock} {env : TrackerEnv} {s : UtxoStore} {ancestor : Nat}

/-- Disconnecting the last block of a chain's beginning. -/
theorem disconnectBlock_onChain (hA : ValidChain D A) {height : Nat} {raw : RawBlock}
    (hraw : A[height]? = some raw) (hutxo : s.db.utxo = replay D (A.take (height + 1)))
    (hundo : s.db.undo (UInt32.ofNat height) = undoRecord D A height) :
    s.disconnectBlock .none (UInt32.ofNat height) =
      (.ok (), s.rolledBack (UInt32.ofNat height) (replay D (A.take height))) := by
  obtain ⟨block, hparse, hover⟩ := hA.valid height raw hraw
  refine disconnectBlock_advanced (parseAt_shape hparse) hover.fresh ?_ ?_
  · rw [hutxo, replay_take_succ D hraw, tableStep_of_parse hparse]
  · rw [hundo, undoRecord, hraw]
    simp only [hparse]

theorem ofNat_sub_one {n : Nat} (hpos : 0 < n) (hlt : n < 2 ^ 32) :
    UInt32.ofNat n - 1 = UInt32.ofNat (n - 1) := by
  rw [show n = n - 1 + 1 by omega, ← ofNat_add_one, UInt32.add_sub_cancel]
  rfl

theorem tipOf_height_ne_zero {height : Nat} (hpos : 0 < height) (hlt : height < 2 ^ 32)
    (raw : RawBlock) : (tipOf D height raw).height ≠ 0 := by
  intro hzero
  have hnat := congrArg UInt32.toNat hzero
  simp only [tipOf, UInt32.toNat_ofNat', UInt32.toNat_zero] at hnat
  omega

/-- The store a run steps back to: the last block of `A` disconnected, the tip
record already that of `B`. -/
def steppedBack (D : Digests) (A : List RawBlock) (s : UtxoStore) (raw : RawBlock) : UtxoStore :=
  (s.rolledBack (UInt32.ofNat (A.length - 1)) (replay D (A.take (A.length - 1)))).setTip
    (tipOf D (A.length - 1 - 1) raw)

/-- A round of the walk back at a block of `A` that the node does not have. -/
theorem walkRound_disconnects (hA : ValidChain D A) {w : World} {height disconnects : Nat}
    {raw : RawBlock} (hpos : 0 < height) (hraw : A[height]? = some raw)
    (hutxo : w.store.db.utxo = replay D (A.take (height + 1)))
    (hundo : w.store.db.undo (UInt32.ofNat height) = undoRecord D A height)
    (hmiss : ¬HasTip env w (tipOf D height raw)) (hdepth : disconnects < env.maxReorgDepth)
    {Q : Option TipState → World → Prop} {E : TrackerStop → World → Prop}
    (hcut : ∀ e w', w'.store = w.store → env.writeFault w.writes ≠ none → E e w')
    (hnext : ∀ w', w'.store = w.store.rolledBack (UInt32.ofNat height)
        (replay D (A.take height)) → w'.writes = w.writes + 1 → w'.calls = w.calls + 1 →
      Fallible.wp (stepBack env (tipOf D height raw)) (fun prev => Q (some prev)) E w') :
    Fallible.wp (walkRound env disconnects (tipOf D height raw)) Q E w := by
  have hbound := hA.length_lt
  have hlt : height < A.length := (List.getElem?_eq_some_iff.mp hraw).1
  have hheight := tipOf_height_ne_zero (D := D) hpos (by omega) raw
  rw [wp_walkRound, if_neg (not_or.mpr ⟨hmiss, hheight⟩), if_neg (by omega)]
  have hop := disconnectBlock_onChain hA hraw hutxo hundo
  refine Fallible.wp_mono (disconnectTip_outcome (w := w.asked _) hop) ?_ ?_
  · rintro _ w' ⟨hstore, hwrites, hcalls⟩
    exact hnext w' hstore hwrites hcalls
  · rintro e w' ⟨hstore, hfault⟩
    exact hcut e w' hstore hfault

theorem not_hasTip {w : World} (hserves : Serves D B (env.node w.calls)) {height : Nat}
    {raw : RawBlock} (hheight : height < 2 ^ 32)
    (hmiss : ∀ b, B[height]? = some b → blockHash D b ≠ blockHash D raw) :
    ¬HasTip env w (tipOf D height raw) := by
  rintro ⟨hanswer, -⟩
  change (env.node w.calls).blockHash (UInt32.ofNat height) = .ok (blockHash D raw) at hanswer
  cases hb : B[height]? with
  | some b =>
      rw [hserves.blockHash height b hb] at hanswer
      exact hmiss b hb (Except.ok.inj hanswer)
  | none =>
      have hnat : (UInt32.ofNat height).toNat = height := toNat_ofNat_height hheight
      obtain ⟨e, he⟩ := hserves.above (UInt32.ofNat height)
        (by rw [hnat]; exact List.getElem?_eq_none_iff.mp hb)
      rw [he] at hanswer
      contradiction

/-- A run that finds the stored tip missing, up to the step back: the disconnect is
cut off, or the rest of the run decides. -/
theorem wp_catchUp_reorg (hA : ValidChain D A) (hs : HoldsChain D A ancestor s)
    (hlt : ancestor < A.length - 1) (hdepth : 0 < env.maxReorgDepth) {raw : RawBlock}
    (hraw : A[A.length - 1]? = some raw) {nodeTip : UInt32}
    (hcount : (env.node 0).blockCount = .ok nodeTip)
    (hmiss : ¬HasTip env { World.start s with calls := 1 } (tipOf D (A.length - 1) raw))
    {Q : Unit → World → Prop} {E : TrackerStop → World → Prop}
    (hcut : ∀ e w', w'.store = s → env.writeFault 0 ≠ none → E e w')
    (hnext : ∀ w', w'.store = s.rolledBack (UInt32.ofNat (A.length - 1))
        (replay D (A.take (A.length - 1))) → w'.writes = 1 → w'.calls = 2 →
      Fallible.wp (stepBack env (tipOf D (A.length - 1) raw)) (fun prev w₁ =>
        Fallible.wp (Tracker.walkBack env (A.length - 1) 1 prev >>=
          applyForward env nodeTip) Q E w₁)
        E w') :
    Fallible.wp (catchUp env) Q E (.start s) := by
  have hbound := hA.length_lt
  obtain ⟨tip, htip, raw₀, hraw₀, rfl⟩ := hs.tip
  obtain rfl := Option.some.inj (hraw₀.symm.trans hraw)
  have hrounds : (tipOf D (A.length - 1) raw₀).height.toNat + 1 = A.length - 1 + 1 := by
    simp only [tipOf, UInt32.toNat_ofNat']
    omega
  rw [wp_catchUp_of_tip (w := World.start s) hcount htip]
  unfold reconcile
  rw [hrounds, Tracker.walkBack, Fallible.wp_bind, Fallible.wp_bind]
  have hlast : A.length - 1 + 1 = A.length := by omega
  refine walkRound_disconnects (w := { World.start s with calls := 1 }) hA (by omega) hraw
    (by rw [hlast, List.take_length]; exact hs.utxo) (hs.undo _ hlt (by omega)) hmiss hdepth
    hcut ?_
  intro w' hstore hwrites hcalls
  refine Fallible.wp_mono (hnext w' hstore hwrites hcalls) ?_ fun _ _ he => he
  intro prev w₁ hrest
  rwa [Fallible.wp_bind] at hrest

section Mismatch

variable (h : Undisturbed D B env) (hA : ValidChain D A) (hs : HoldsChain D A ancestor s)
  (hlt : ancestor < A.length - 1) (hdepth : 0 < env.maxReorgDepth) {raw : RawBlock}
  (hraw : A[A.length - 1]? = some raw)
  (hmiss : ∀ b, B[A.length - 1]? = some b → blockHash D b ≠ blockHash D raw)

include h hA hs hlt hdepth hraw hmiss

/-- When the node does not reach the height below, the run stops. -/
theorem Undisturbed.catchUp_tooShort (hshort : B.length < A.length - 1) :
    ∃ e w', catchUp env (.start s) = (.error e, w') := by
  have hbound := hA.length_lt
  have hrun : Fallible.wp (catchUp env) (fun _ _ => False) (fun _ _ => True) (.start s) := by
    refine wp_catchUp_reorg hA hs hlt hdepth hraw (h.serves 0).blockCount
      (not_hasTip (h.serves _) (by omega) hmiss) (fun _ _ _ _ => trivial) ?_
    intro w' _ _ _
    have hprev : (tipOf D (A.length - 1) raw).height - 1 = UInt32.ofNat (A.length - 1 - 1) :=
      ofNat_sub_one (by omega) (by omega)
    obtain ⟨e, he⟩ := (h.serves w'.calls).above ((tipOf D (A.length - 1) raw).height - 1) (by
      rw [hprev, toNat_ofNat_height (by omega)]
      omega)
    rw [stepBack_error he]
    trivial
  obtain ⟨e, w', hw', -⟩ := Fallible.exists_error_of_wp hrun
  exact ⟨e, w', hw'⟩

/-- When it does, the walk ends there and `B` is followed from the next height. -/
theorem Undisturbed.catchUp_reorg (hB : ValidChain D B) {raw' : RawBlock}
    (hraw' : B[A.length - 1 - 1]? = some raw') :
    ∃ w', catchUp env (.start s) = (.ok (), w') ∧
      w'.store = (steppedBack D A s raw').followed D B (A.length - 1)
        (B.length - (A.length - 1)) := by
  have hbound := hA.length_lt
  have hprev : (tipOf D (A.length - 1) raw).height - 1 = UInt32.ofNat (A.length - 1 - 1) :=
    ofNat_sub_one (by omega) (by omega)
  have hrun : Fallible.wp (catchUp env)
      (fun _ w' => w'.store = (steppedBack D A s raw').followed D B (A.length - 1)
        (B.length - (A.length - 1))) (fun _ _ => False) (.start s) := by
    refine wp_catchUp_reorg hA hs hlt hdepth hraw (h.serves 0).blockCount
      (not_hasTip (h.serves _) (by omega) hmiss)
      (fun _ _ _ hfault => hfault (h.writes _)) ?_
    intro w' hstore _ _
    have hanswer := (h.serves w'.calls).blockHash _ _ hraw'
    rw [← hprev] at hanswer
    refine Fallible.wp_mono (stepBack_outcome hanswer) ?_ ?_
    · rintro prev w₁ ⟨rfl, hstore₁, -, -, -⟩
      have htip : TipOn D B (A.length - 1 - 1)
          ⟨(tipOf D (A.length - 1) raw).height - 1, blockHash D raw'⟩ :=
        ⟨raw', hraw', by rw [hprev]; rfl⟩
      have hstore₂ : w₁.store = steppedBack D A s raw' := by
        rw [hstore₁, hstore, hprev]
        rfl
      have hlive : w₁.store.Live := by
        rw [hstore₂]
        exact (hs.live.rolledBack _ _).setTip _
      -- The node has its own hash at this height: the walk is over.
      rw [Fallible.wp_bind,
        wp_walkBack_of_hasTip (by omega) (.of_serves hB (h.serves _) htip)]
      refine Fallible.wp_mono (applyForward_outcome (w := w₁.asked _) h.digests hB
        h.servesOrFails hlive htip) ?_ ?_
      · rintro _ w₂ hw₂
        rw [show A.length - 1 - 1 + 1 = A.length - 1 by omega] at hw₂
        rw [hw₂, ← hstore₂]
        rfl
      · intro _ w₂ hstop
        exact h.not_stopped hstop
    · rintro _ w₁ ⟨-, hfault⟩
      exact hfault (h.writes _)
  obtain ⟨_, w', hw', hstore⟩ := Fallible.exists_ok_of_wp hrun
  exact ⟨w', hw', hstore⟩

end Mismatch

/-- On the old chain's own tip, or on a common one, the condition holds. -/
theorem ReorgSafe.of_take_eq (hlen : A.length - 1 ≤ B.length)
    (htake : A.take (A.length - 1) = B.take (A.length - 1)) : ReorgSafe D A B :=
  ⟨hlen, fun k _ => by rw [htake]⟩

end Run

/-- A node that serves `B`, a store on the tip of `A`, undo records down to the
common ancestor, and a reorganisation within the allowed depth: the run ends on
`B` if and only if `ReorgSafe`. -/
theorem catchUp_endsOn_iff_reorgSafe (D : Digests) (A B : List RawBlock) (ancestor : Nat)
    (s : UtxoStore) (env : TrackerEnv) (hA : ValidChain D A) (hB : ValidChain D B)
    (hshared : SharedHashes D A B) (hancestorA : ancestor < A.length)
    (hancestorB : ancestor < B.length) (hcommon : A.take (ancestor + 1) = B.take (ancestor + 1))
    (hdepth : A.length - 1 - ancestor ≤ env.maxReorgDepth)
    (hs : HoldsChain D A ancestor s) (henv : Undisturbed D B env) :
    EndsOn D B (catchUp env (.start s)) ↔ ReorgSafe D A B := by
  obtain ⟨tip, htip, raw, hraw, rfl⟩ := hs.tip
  have hlast : A.length - 1 + 1 = A.length := by omega
  by_cases hsame : ∃ b, B[A.length - 1]? = some b ∧ blockHash D b = blockHash D raw
  · -- The node has the old tip: the chains agree up to it.
    obtain ⟨b, hb, hhash⟩ := hsame
    have hltB : A.length - 1 < B.length := (List.getElem?_eq_some_iff.mp hb).1
    have htake := hA.take_eq_of_hash hB hshared hraw hb hhash.symm
    have htipB : TipOn D B (A.length - 1) (tipOf D (A.length - 1) raw) :=
      ⟨b, hb, by rw [tipOf, tipOf, hhash]⟩
    obtain ⟨w', hw', hstore⟩ := henv.catchUp_onChain (w := .start s) hB hs.live htip htipB
    have hutxo : s.db.utxo = replay D (B.take (A.length - 1 + 1)) := by
      rw [← htake, hlast, List.take_length]
      exact hs.utxo
    refine iff_of_true ?_ (.of_take_eq hltB.le (take_eq_of_le htake (Nat.le_succ _)))
    rw [hw']
    refine ⟨rfl, ?_, ?_⟩
    · rw [hstore]
      exact followed_utxo_end hutxo (by omega)
    · rw [hstore]
      exact tip_followed_end hB htip htipB
  · have hmiss : ∀ b, B[A.length - 1]? = some b → blockHash D b ≠ blockHash D raw :=
      fun b hb heq => hsame ⟨b, hb, heq⟩
    have hlt : ancestor < A.length - 1 := by
      by_contra hnot
      obtain rfl : ancestor = A.length - 1 := by omega
      have hget := getElem?_eq_of_take_eq hcommon (Nat.lt_succ_self _)
      exact hmiss raw (hget.symm.trans hraw) rfl
    by_cases hlen : A.length - 1 ≤ B.length
    · have hraw' : B[A.length - 1 - 1]? = some _ := List.getElem?_eq_getElem (by omega)
      obtain ⟨w', hw', hstore⟩ :=
        henv.catchUp_reorg hA hs hlt (by omega) hraw hmiss hB hraw'
      have hdec : Table.Decodes (steppedBack D A s B[A.length - 1 - 1]).db.utxo :=
        hA.decodes (A.length - 1)
      have hend := followed_utxo_end_iff hB hdec hlen
      rw [hw']
      constructor
      · rintro ⟨-, hutxo, -⟩
        rw [hstore] at hutxo
        exact ⟨hlen, hend.mp hutxo⟩
      · rintro ⟨-, hsafe⟩
        refine ⟨rfl, ?_, ?_⟩
        · rw [hstore]
          exact hend.mpr hsafe
        · have hstepped : (steppedBack D A s B[A.length - 1 - 1]).tip = some _ :=
            UtxoStore.tip_setTip _ _
          have hend := tip_followed_end hB hstepped ⟨_, hraw', rfl⟩
          rw [show A.length - 1 - 1 + 1 = A.length - 1 by omega] at hend
          rw [hstore]
          exact hend
    · obtain ⟨e, w', hw'⟩ := henv.catchUp_tooShort hA hs hlt (by omega) hraw hmiss (by omega)
      refine iff_of_false ?_ fun hsafe => hlen hsafe.1
      intro hends
      have hreturned := hends.returned
      rw [hw'] at hreturned
      contradiction

/-! ## Concrete runs -/

/-- A store that holds a chain with all its undo records. -/
def chainStore (D : Digests) (A : List RawBlock) : UtxoStore :=
  (UtxoStore.openLive ⟨replay D A, fun x => undoRecord D A x.toNat, none⟩).setTip
    (tipOf D (A.length - 1) (A.getLastD []))

theorem chainStore_undo {D : Digests} {A : List RawBlock} {height : Nat}
    (hlt : height < 2 ^ 32) :
    (chainStore D A).db.undo (UInt32.ofNat height) = undoRecord D A height := by
  change undoRecord D A (UInt32.ofNat height).toNat = _
  rw [toNat_ofNat_height hlt]

theorem holdsChain_chainStore {D : Digests} {A : List RawBlock} (hne : A ≠ [])
    (hlen : A.length < 2 ^ 32) : HoldsChain D A 0 (chainStore D A) where
  live := (UtxoStore.live_openLive _).setTip _
  utxo := rfl
  tip := by
    refine ⟨_, UtxoStore.tip_setTip _ _, A.getLastD [], ?_, rfl⟩
    rw [← List.getLast?_eq_getElem?, List.getLast?_eq_some_getLast hne, List.getLastD_eq_getLast?,
      List.getLast?_eq_some_getLast hne, Option.getD_some]
  undo := by
    intro height _ hlt
    exact chainStore_undo (by omega)

/-- A node that keeps serving one chain, and no write that fails. -/
def quietEnv (D : Digests) (B : List RawBlock) : TrackerEnv where
  digests := D
  maxReorgDepth := 100
  node _ := serving D B
  writeFault _ := none
  orders _ := .stored _ _

theorem undisturbed_quietEnv {D : Digests} {B : List RawBlock} (hlen : B.length < 2 ^ 32)
    (hnodup : (B.map (blockHash D)).Nodup) : Undisturbed D B (quietEnv D B) where
  digests := rfl
  serves _ := serves_serving hlen hnodup
  writes _ := rfl

theorem oldChain_hashes_nodup : (oldChain.map (blockHash treeDigests)).Nodup := by
  decide +kernel

theorem newChain_hashes_nodup : (newChain.map (blockHash treeDigests)).Nodup := by
  decide +kernel

/-- One block back and two forward. -/
theorem catchUp_endsOn_iff_reorgSafe_sample :
    EndsOn treeDigests newChain (catchUp (quietEnv treeDigests newChain)
      (.start (chainStore treeDigests (oldChain.take 2)))) :=
  (catchUp_endsOn_iff_reorgSafe treeDigests (oldChain.take 2) newChain 0 _ _ (by decide +kernel)
    newChain_valid (by decide +kernel) (by decide) (by decide) (by decide +kernel) (by decide)
    (holdsChain_chainStore (by simp [oldChain]) (by decide))
    (undisturbed_quietEnv (by decide) newChain_hashes_nodup)).mpr
      (.of_take_eq (by decide) (by decide +kernel))

/-- A fork two blocks deep: the run returns, but the first old block is never
disconnected and the first new one never applied. -/
theorem catchUp_deep_reorg_keeps_old_block :
    (ValidChain treeDigests oldChain ∧ ValidChain treeDigests newChain ∧
      SharedHashes treeDigests oldChain newChain ∧ oldChain.take 1 = newChain.take 1 ∧
      HoldsChain treeDigests oldChain 0 (chainStore treeDigests oldChain) ∧
      Undisturbed treeDigests newChain (quietEnv treeDigests newChain)) ∧
    (catchUp (quietEnv treeDigests newChain) (.start (chainStore treeDigests oldChain))).1 =
      .ok () ∧
    ¬EndsOn treeDigests newChain
      (catchUp (quietEnv treeDigests newChain) (.start (chainStore treeDigests oldChain))) := by
  refine ⟨⟨oldChain_valid, newChain_valid, by decide +kernel, by decide +kernel,
    holdsChain_chainStore (by simp [oldChain]) (by decide),
    undisturbed_quietEnv (by decide) newChain_hashes_nodup⟩, by decide +kernel, ?_⟩
  intro hends
  have hkept : (catchUp (quietEnv treeDigests newChain)
      (.start (chainStore treeDigests oldChain))).2.store.db.utxo
        (makeKey (wordBytes 32 sampleOld1.txid) 0) ≠
      replay treeDigests newChain (makeKey (wordBytes 32 sampleOld1.txid) 0) := by
    decide +kernel
  exact hkept (congrFun hends.utxo _)

end Bidx
