import Bidx.Live.Linkage

/-!
# The events of a run

A run of `catch_up` that gets through tells its sink one story, whatever the node
answered: the blocks it disconnected from the stored tip down, the blocks it applied from
there up to the height the node named first, and one `CaughtUp` at the persisted height.
Heights are contiguous in both parts, so nothing is applied twice.
-/

namespace Bidx

open KeyValue Tracker

/-- What a run passes to `on_event`. -/
abbrev EventLog := List (TrackerEvent × Option FullBlock)

/-- The heights after `low` up to `high`. -/
def heightsUp (low high : Nat) : List UInt32 :=
  (List.range' (low + 1) (high - low)).map UInt32.ofNat

/-- A disconnect at a height. -/
def IsDisconnect (height : UInt32) (e : TrackerEvent × Option FullBlock) : Prop :=
  ∃ hash, e = (.disconnected height hash, none)

/-- The blocks after `ancestor` are disconnected, the highest first, and announced. -/
def WalkedBack (top ancestor : Nat) (events : EventLog) : Prop :=
  (ancestor = top ∧ events = []) ∨
    (ancestor < top ∧ ∃ downs, events = (.reorgStart 0, none) :: downs ∧
      List.Forall₂ IsDisconnect (heightsUp ancestor top).reverse downs)

/-- A block applied as the node gave it at a request of the run: its hash, its rows with
the fees `apply_block` found, and the spend rows. -/
def IsApply (env : TrackerEnv) (requests : List HashRequest) (height : UInt32)
    (e : TrackerEvent × Option FullBlock) : Prop :=
  ∃ req ∈ requests, req.height = height ∧ ∃ hash block, Fetched env req.call height (hash, block) ∧
    ∃ (order : IterOrder Key UtxoValue) (s s' : UtxoStore) (res : SpendResult),
      s.applyBlock order .none height block.txs block.inputs block.outputs = (.ok res, s') ∧
      e = (.applied height hash res.spends, some (fillFees block res.fees))

/-- The blocks after `ancestor` are applied, the lowest first. -/
def AppliedForward (env : TrackerEnv) (requests : List HashRequest) (ancestor top : Nat)
    (events : EventLog) : Prop :=
  List.Forall₂ (IsApply env requests) (heightsUp ancestor top) events

theorem heightsUp_self (height : Nat) : heightsUp height height = [] := by
  rw [heightsUp, Nat.sub_self]
  rfl

theorem heightsUp_cons {low high : Nat} (h : low < high) :
    heightsUp low high = UInt32.ofNat (low + 1) :: heightsUp (low + 1) high := by
  rw [heightsUp, show high - low = (high - (low + 1)) + 1 by omega, List.range'_succ]
  rfl

theorem heightsUp_snoc {low high : Nat} (h : low ≤ high) :
    heightsUp low (high + 1) = heightsUp low high ++ [UInt32.ofNat (high + 1)] := by
  rw [heightsUp, show high + 1 - low = (high - low) + 1 by omega, List.range'_1_concat,
    List.map_append, show low + 1 + (high - low) = high + 1 by omega]
  rfl

section Steps

variable {env : TrackerEnv} {w : World} {tip : TipState}

theorem IsApply.mono {requests requests' : List HashRequest} {height : UInt32}
    {e : TrackerEvent × Option FullBlock} (h : IsApply env requests height e)
    (hsub : requests ⊆ requests') : IsApply env requests' height e := by
  obtain ⟨req, hreq, hrest⟩ := h
  exact ⟨req, hsub hreq, hrest⟩

/-! ## Back -/

/-- The events of one disconnect. -/
def disconnectEvents (disconnects : Nat) (tip : TipState) : EventLog :=
  (if disconnects = 0 then [(.reorgStart 0, none)] else []) ++
    [(.disconnected tip.height tip.hash, none)]

theorem disconnectTip_events {disconnects : Nat} (htip : w.store.tip = some tip) :
    Fallible.wp (disconnectTip env disconnects tip)
      (fun _ w' => w'.store.tip = some tip ∧
        w'.events = w.events ++ disconnectEvents disconnects tip)
      (fun _ _ => True) w := by
  have hrest : ∀ events, Fallible.wp (do
      disconnectBlock env tip.height
      emit (.disconnected tip.height tip.hash) none)
      (fun _ w' => w'.store.tip = some tip ∧
        w'.events = events ++ [(.disconnected tip.height tip.hash, none)])
      (fun _ _ => True) { w with events } := by
    intro events
    rw [Fallible.wp_bind, wp_disconnectBlock]
    refine wp_durable_of ?_ fun _ _ => trivial
    intro _ store hop
    have hsame := tip_disconnectBlock w.store .none tip.height
    rw [hop] at hsame
    exact ⟨hsame.trans htip, rfl⟩
  unfold disconnectTip
  rw [Fallible.wp_bind, announceReorg, disconnectEvents]
  split
  · rw [← List.append_assoc]
    exact hrest _
  · exact hrest w.events

theorem stepBack_events : Fallible.wp (stepBack env tip)
    (fun prev w' => prev.height = tip.height - 1 ∧ w'.store.tip = some prev ∧
      w'.events = w.events) (fun _ _ => True) w := by
  cases hanswer : (env.node w.calls).blockHash (tip.height - 1) with
  | error e =>
      rw [stepBack_error hanswer]
      trivial
  | ok hash =>
      unfold stepBack
      rw [Fallible.wp_bind]
      change Fallible.wp (orRpc ((env.node w.calls).blockHash (tip.height - 1)) >>= _) _ _
        (w.asked (tip.height - 1))
      rw [hanswer, Fallible.wp_bind, wp_orRpc_ok, Fallible.wp_bind]
      refine wp_durable_of ?_ fun _ _ => trivial
      rintro _ store hset
      obtain ⟨-, rfl⟩ := Prod.mk.inj hset
      exact ⟨rfl, UtxoStore.tip_setTip _ _, rfl⟩

/-- What the loop has told when it is left at `ancestor`, `disconnects` rounds in. -/
def WalkedFrom (disconnects : Nat) (top ancestor : Nat) (events : EventLog) : Prop :=
  (ancestor = top ∧ events = []) ∨
    (ancestor < top ∧ ∃ downs,
      events = (if disconnects = 0 then [(.reorgStart 0, none)] else []) ++ downs ∧
      List.Forall₂ IsDisconnect (heightsUp ancestor top).reverse downs)

theorem toNat_sub_one {height : UInt32} (h : height ≠ 0) :
    (height - 1).toNat = height.toNat - 1 := by
  have hpos : 1 ≤ height := by
    rw [UInt32.le_iff_toNat_le, UInt32.toNat_one]
    have : height.toNat ≠ 0 := fun hzero => h (UInt32.toNat_inj.mp hzero)
    omega
  rw [UInt32.toNat_sub_of_le _ _ hpos, UInt32.toNat_one]

/-- One more disconnect on top. -/
theorem WalkedFrom.cons {disconnects top ancestor : Nat} {events : EventLog}
    (h : WalkedFrom (disconnects + 1) top ancestor events)
    (htip : tip.height = UInt32.ofNat (top + 1)) :
    WalkedFrom disconnects (top + 1) ancestor (disconnectEvents disconnects tip ++ events) := by
  have hdown : IsDisconnect (UInt32.ofNat (top + 1))
      (.disconnected tip.height tip.hash, none) := ⟨tip.hash, by rw [htip]⟩
  refine .inr ?_
  rcases h with ⟨rfl, rfl⟩ | ⟨hlt, downs, hevents, hdowns⟩
  · refine ⟨by omega, [(.disconnected tip.height tip.hash, none)], ?_, ?_⟩
    · rw [List.append_nil, disconnectEvents]
    · rw [heightsUp_snoc (Nat.le_refl _), heightsUp_self]
      exact .cons hdown .nil
  · refine ⟨by omega, (.disconnected tip.height tip.hash, none) :: downs, ?_, ?_⟩
    · rw [hevents, disconnectEvents, if_neg (Nat.succ_ne_zero disconnects), List.nil_append,
        List.append_assoc, List.singleton_append]
    · rw [heightsUp_snoc hlt.le, List.reverse_append]
      exact .cons hdown hdowns

/-- The walk back: by induction on the rounds, from the first disconnect. -/
theorem walkBack_events {rounds disconnects : Nat} (htip : w.store.tip = some tip)
    (hrounds : tip.height.toNat < rounds) :
    Fallible.wp (Tracker.walkBack env rounds disconnects tip)
      (fun last w' => w'.store.tip = some last ∧
        (last.height = tip.height ∨
          disconnects + (tip.height.toNat - last.height.toNat) ≤ env.maxReorgDepth) ∧
        ∃ events, w'.events = w.events ++ events ∧
          WalkedFrom disconnects tip.height.toNat last.height.toNat events)
      (fun _ _ => True) w := by
  induction rounds generalizing disconnects tip w with
  | zero => omega
  | succ rounds ih =>
      rw [Tracker.walkBack, Fallible.wp_bind, wp_walkRound]
      split
      · exact ⟨htip, .inl rfl, [], (List.append_nil _).symm, .inl ⟨rfl, rfl⟩⟩
      · rename_i hgo
        rw [not_or] at hgo
        split
        · trivial
        · rename_i hdepth
          have hasked : (w.asked tip.height).store.tip = some tip := htip
          refine Fallible.wp_mono (disconnectTip_events hasked) ?_ fun _ _ h => h
          rintro _ w₁ ⟨htip₁, hevents₁⟩
          refine Fallible.wp_mono stepBack_events ?_ fun _ _ h => h
          rintro prev w₂ ⟨hheight, htip₂, hevents₂⟩
          have hprev : prev.height.toNat = tip.height.toNat - 1 := by
            rw [hheight, toNat_sub_one hgo.2]
          have hpos : tip.height.toNat ≠ 0 := fun hzero => hgo.2 (UInt32.toNat_inj.mp hzero)
          refine Fallible.wp_mono (ih htip₂ (by omega)) ?_ fun _ _ h => h
          rintro last w' ⟨hlast, hbound, events, hevents, hwalked⟩
          rw [hprev] at hwalked
          have htop : tip.height = UInt32.ofNat (tip.height.toNat - 1 + 1) := by
            rw [Nat.sub_add_cancel (Nat.one_le_iff_ne_zero.mpr hpos), UInt32.ofNat_toNat]
          have hcons := hwalked.cons htop
          rw [Nat.sub_add_cancel (Nat.one_le_iff_ne_zero.mpr hpos)] at hcons
          refine ⟨hlast, .inr ?_, _, ?_, hcons⟩
          · rcases hbound with hsame | hbound
            · rw [hsame]
              omega
            · omega
          · rw [hevents, hevents₂, hevents₁, List.append_assoc]
            rfl

theorem walkedBack_of_walkedFrom {top ancestor : Nat} {events : EventLog}
    (h : WalkedFrom 0 top ancestor events) : WalkedBack top ancestor events := h

/-! ## Forward -/

theorem forwardRound_events : Fallible.wp (forwardRound env tip)
    (fun next w' => next.height = tip.height + 1 ∧ w'.store.tip = some next ∧
      w.requests ⊆ w'.requests ∧
      ∃ e, w'.events = w.events ++ [e] ∧ IsApply env w'.requests (tip.height + 1) e)
    (fun _ _ => True) w := by
  unfold forwardRound
  refine Fallible.wp_seq (Fallible.wp_mono fetchNext_fetched (fun _ _ h => h)
    fun _ _ _ => trivial) ?_
  rintro ⟨hash, block⟩ _ ⟨rfl, hfetched⟩
  unfold applyBlock
  simp only [Fallible.wp_bind, Fallible.wp_modify, Fallible.wp_read]
  refine wp_durable_of ?_ fun _ _ => trivial
  intro res store hres
  refine wp_durable_of ?_ fun _ _ => trivial
  rintro _ store' hset
  obtain ⟨-, rfl⟩ := Prod.mk.inj hset
  refine ⟨rfl, UtxoStore.tip_setTip _ _, List.subset_append_left _ _, _, rfl, ?_⟩
  exact ⟨⟨w.calls, w.store.tip, tip.height + 1⟩, List.mem_append_right _ List.mem_cons_self, rfl,
    hash, block, hfetched, _, _, store, res, hres, rfl⟩

/-- The forward loop: by induction on the rounds, from the first block. -/
theorem forward_events {rounds : Nat} (hlt : tip.height.toNat + rounds < 2 ^ 32)
    (htip : w.store.tip = some tip) :
    Fallible.wp (forward env rounds tip)
      (fun last w' => w'.store.tip = some last ∧
        last.height.toNat = tip.height.toNat + rounds ∧ w.requests ⊆ w'.requests ∧
        ∃ events, w'.events = w.events ++ events ∧
          AppliedForward env w'.requests tip.height.toNat (tip.height.toNat + rounds) events)
      (fun _ _ => True) w := by
  induction rounds generalizing tip w with
  | zero =>
      refine ⟨htip, rfl, List.Subset.refl _, [], (List.append_nil _).symm, ?_⟩
      rw [AppliedForward, Nat.add_zero, heightsUp_self]
      exact .nil
  | succ rounds ih =>
      rw [forward]
      refine Fallible.wp_seq forwardRound_events ?_
      rintro next w₁ ⟨hheight, htip₁, hsub₁, e, hevents₁, happly⟩
      have hnext : next.height.toNat = tip.height.toNat + 1 := by
        rw [hheight, UInt32.toNat_add, UInt32.toNat_one, Nat.mod_eq_of_lt (by omega)]
      refine Fallible.wp_mono (ih (by omega) htip₁) ?_ fun _ _ h => h
      rintro last w' ⟨hlast, hlastHeight, hsub, events, hevents, happlied⟩
      refine ⟨hlast, by omega, List.Subset.trans hsub₁ hsub, e :: events, ?_, ?_⟩
      · rw [hevents, hevents₁, List.append_assoc, List.singleton_append]
      · rw [AppliedForward, heightsUp_cons (by omega), ← hnext, UInt32.ofNat_toNat, hheight]
        refine .cons (happly.mono hsub) ?_
        rw [← hheight, show tip.height.toNat + (rounds + 1) = next.height.toNat + rounds by omega]
        exact happlied

end Steps

/-! ## The run -/

/-- The events and the tip of a run that started at `tip` and was told `nodeTip`. -/
def Disciplined (env : TrackerEnv) (tip : TipState) (nodeTip : UInt32) (w : World) : Prop :=
  ∃ ancestor walked applied last, ancestor ≤ tip.height.toNat ∧
    tip.height.toNat - ancestor ≤ env.maxReorgDepth ∧
    WalkedBack tip.height.toNat ancestor walked ∧
    AppliedForward env w.requests ancestor nodeTip.toNat applied ∧
    last.height.toNat = max ancestor nodeTip.toNat ∧ w.store.tip = some last ∧
    w.events = walked ++ applied ++ [(.caughtUp last.height, none)]

theorem applyForward_events {env : TrackerEnv} {w : World} {ancestor : TipState}
    {nodeTip : UInt32} (htip : w.store.tip = some ancestor) :
    Fallible.wp (applyForward env nodeTip ancestor)
      (fun _ w' => ∃ applied last,
        AppliedForward env w'.requests ancestor.height.toNat nodeTip.toNat applied ∧
        last.height.toNat = max ancestor.height.toNat nodeTip.toNat ∧
        w'.store.tip = some last ∧
        w'.events = w.events ++ applied ++ [(.caughtUp last.height, none)])
      (fun _ _ => True) w := by
  have hbound := UInt32.toNat_lt nodeTip
  have hbound' := UInt32.toNat_lt ancestor.height
  unfold applyForward
  refine Fallible.wp_seq (forward_events (by omega) htip) ?_
  rintro last w' ⟨hlast, hheight, -, applied, hevents, happlied⟩
  have hheights : heightsUp ancestor.height.toNat
      (ancestor.height.toNat + (nodeTip.toNat - ancestor.height.toNat)) =
        heightsUp ancestor.height.toNat nodeTip.toNat := by
    rw [heightsUp, heightsUp, Nat.add_sub_cancel_left]
  rw [AppliedForward, hheights] at happlied
  refine ⟨applied, last, happlied, by omega, hlast, ?_⟩
  show w'.events ++ _ = _
  rw [hevents]

/-- In every run from a stored tip that gets through, whatever the node answers: the
blocks down to some ancestor are disconnected, those after it are applied up to the height
the node named, and the run ends with `CaughtUp` at the persisted height. -/
theorem catchUp_disciplined (env : TrackerEnv) (s : UtxoStore) (tip : TipState) (w : World)
    (htip : s.tip = some tip) (hrun : catchUp env (.start s) = (.ok (), w)) :
    ∃ nodeTip, (env.node 0).blockCount = .ok nodeTip ∧ Disciplined env tip nodeTip w := by
  have hstart : (World.start s).store.tip = some tip := htip
  cases hcount : (env.node 0).blockCount with
  | error e =>
      have hstops : Fallible.wp (catchUp env) (fun _ _ => False) (fun _ _ => True)
          (World.start s) := (wp_catchUp_of_error hcount).mpr trivial
      exact (Fallible.of_wp_ok hstops hrun).elim
  | ok nodeTip =>
      refine ⟨nodeTip, rfl, ?_⟩
      have htells : Fallible.wp (catchUp env) (fun _ w' => Disciplined env tip nodeTip w')
          (fun _ _ => True) (World.start s) := by
        rw [wp_catchUp_of_tip hcount hstart, reconcile]
        refine Fallible.wp_seq (walkBack_events htip (Nat.lt_succ_self _)) ?_
        rintro ancestor w₁ ⟨htip₁, hdepth, walked, hevents₁, hwalked⟩
        refine Fallible.wp_mono (applyForward_events htip₁) ?_ fun _ _ h => h
        rintro _ w₂ ⟨applied, last, happlied, hlast, htip₂, hevents₂⟩
        refine ⟨ancestor.height.toNat, walked, applied, last, ?_, ?_,
          walkedBack_of_walkedFrom hwalked, happlied, hlast, htip₂, ?_⟩
        · rcases hwalked with ⟨hsame, -⟩ | ⟨hlt, -⟩
          · exact hsame.le
          · exact hlt.le
        · rcases hdepth with hsame | hdepth
          · rw [hsame]
            omega
          · omega
        · rw [hevents₂, hevents₁]
          rfl
      have htold := Fallible.of_wp_ok htells hrun
      exact htold

/-- A reorganisation of two blocks, told in full. -/
theorem catchUp_disciplined_sample :
    ∃ w, catchUp (quietEnv treeDigests newChain)
        (.start (chainStore treeDigests (oldChain.take 2))) = (.ok (), w) ∧
      ∃ nodeTip, ((quietEnv treeDigests newChain).node 0).blockCount = .ok nodeTip ∧
        Disciplined (quietEnv treeDigests newChain)
          (tipOf treeDigests 1 sampleOld1.raw) nodeTip w := by
  have hok : (catchUp (quietEnv treeDigests newChain)
      (.start (chainStore treeDigests (oldChain.take 2)))).1 = .ok () := by decide +kernel
  have htip : (chainStore treeDigests (oldChain.take 2)).tip =
      some (tipOf treeDigests 1 sampleOld1.raw) := by decide +kernel
  rcases hrun : catchUp (quietEnv treeDigests newChain)
    (.start (chainStore treeDigests (oldChain.take 2))) with ⟨res, w⟩
  rw [hrun] at hok
  change res = .ok () at hok
  subst hok
  exact ⟨w, rfl, catchUp_disciplined _ _ _ _ htip hrun⟩

end Bidx
