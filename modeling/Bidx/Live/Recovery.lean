import Bidx.Live.Interruption

/-!
# Recovery after an interruption

A run from the tip of `A` against a node that serves `B`, forked at most one block
below, is cut off, and a second run goes through.  When the node still has the tip
of `A`, the first run is one along `B`.  Otherwise it begins with two writes, the
disconnect and the tip record below, with an RPC call between them.  A cut between
the two leaves the old tip without its undo record: the second run disconnects it
again and fails, then and ever after.
-/

namespace Bidx

open KeyValue Tracker

/-- A live store consistent with `A`: its table, its tip and the undo record of its
last block; the records below are those of `A` or pruned. -/
structure Consistent (D : Digests) (A : List RawBlock) (s : UtxoStore) : Prop extends
    HoldsChain D A (A.length - 2) s where
  records : ∀ height, height < A.length → s.db.undo (UInt32.ofNat height) = none ∨
    s.db.undo (UInt32.ofNat height) = undoRecord D A height

/-- The node still has the tip of `A`. -/
def KeepsTip (A B : List RawBlock) : Prop := B[A.length - 1]? = A[A.length - 1]?

instance (A B : List RawBlock) : Decidable (KeepsTip A B) :=
  inferInstanceAs (Decidable (_ = _))

/-- The cut does not fall between a disconnect and the tip record below, nor
between a block that spends outputs of earlier blocks and its tip record. -/
def Interruption.Safe (D : Digests) (A B : List RawBlock) : Interruption → Prop
  | .dies write =>
      if KeepsTip A B then SafeWrite D B A.length 0 write
      else write ≠ 1 ∧ SafeWrite D B (A.length - 1) 2 write
  | .rpcFails call _ => KeepsTip A B ∨ call ≠ 2

/-- The undo records that following `B` above a height leaves. -/
def undoAbove (D : Digests) (B : List RawBlock) (height : Nat)
    (undo : UInt32 → Option (List UInt8)) (x : UInt32) : Option (List UInt8) :=
  if height < x.toNat ∧ x.toNat < B.length then undoRecord D B x.toNat else undo x

section Common

variable {D : Digests} {A B : List RawBlock} {s : UtxoStore} {height : Nat}

theorem onWay_undoAbove (hlive : s.Live) (hutxo : s.db.utxo = replay D (B.take (height + 1)))
    (htip : ∃ tip, s.tip = some tip ∧ TipOn D B height tip) :
    OnWay D B (undoAbove D B height s.db.undo) height s where
  live := hlive
  utxo := hutxo
  tip := htip
  behind _ hx := (if_neg hx).symm
  ahead _ hgt hlt := if_pos ⟨hgt, hlt⟩

end Common

/-! ## A tip the node does not have -/

section Stuck

variable {D : Digests} {B : List RawBlock} {s : UtxoStore} {env : TrackerEnv} {height : Nat}
  {raw : RawBlock}

/-- A run that may not disconnect, or finds no undo record, stops. -/
theorem catchUp_stuck (hnode : ServesOrFails D B env.node)
    (htip : s.tip = some (tipOf D height raw)) (hpos : 0 < height) (hlt : height < 2 ^ 32)
    (hmiss : ∀ b, B[height]? = some b → blockHash D b ≠ blockHash D raw)
    (hstuck : env.maxReorgDepth = 0 ∨ s.db.undo (UInt32.ofNat height) = none) :
    Fallible.wp (catchUp env) (fun _ _ => False) (fun _ w' => w'.store = s) (.start s) := by
  rcases hnode 0 with hserves | hfails
  · have hheight := tipOf_height_ne_zero (D := D) hpos hlt raw
    rw [wp_catchUp_of_tip (w := World.start s) hserves.blockCount htip]
    unfold reconcile
    rw [Tracker.walkBack, Fallible.wp_bind, Fallible.wp_bind, wp_walkRound,
      if_neg (not_or.mpr ⟨hnode.not_hasTip hlt hmiss, hheight⟩)]
    by_cases hdeep : env.maxReorgDepth ≤ 0
    · rw [if_pos hdeep]
      rfl
    · have hnone := hstuck.resolve_left (by omega)
      rw [if_neg hdeep]
      exact disconnectTip_noUndo hnone fun _ w' hstore => hstore
  · obtain ⟨e, he⟩ := hfails.blockCount
    rw [wp_catchUp_of_error (w := World.start s) he]
    rfl

theorem not_recovered_of_wp {run : Except TrackerStop Unit × World}
    {E : TrackerStop → World → Prop}
    (h : Fallible.wp (catchUp env) (fun _ _ => False) E (.start s)) :
    ¬Recovered (catchUp env (.start s)) run := by
  intro hrecovered
  obtain ⟨e, w', hw', -⟩ := Fallible.exists_error_of_wp h
  have hreturned := hrecovered.returned
  rw [hw'] at hreturned
  contradiction

end Stuck

/-! ## The last block of `A` is replaced -/

/-- The tip of `A` disconnected, with no new tip record yet. -/
def disconnected (D : Digests) (A : List RawBlock) (s : UtxoStore) : UtxoStore :=
  s.rolledBack (UInt32.ofNat (A.length - 1)) (replay D (A.take (A.length - 1)))

/-- The undo records of a run over the replaced block. -/
def reorgUndo (D : Digests) (A B : List RawBlock) (s : UtxoStore) :
    UInt32 → Option (List UInt8) :=
  undoAbove D B (A.length - 1 - 1) (disconnected D A s).db.undo

section Replaced

variable {D : Digests} {A B : List RawBlock} {s : UtxoStore} {env : TrackerEnv} {raw : RawBlock}

/-- A fork right below the tip of `A`, within the allowed depth. -/
structure Replaced (D : Digests) (A B : List RawBlock) (s : UtxoStore) (env : TrackerEnv)
    (raw : RawBlock) : Prop where
  oldValid : ValidChain D A
  newValid : ValidChain D B
  consistent : Consistent D A s
  undisturbed : Undisturbed D B env
  depth : 0 < env.maxReorgDepth
  length : 1 < A.length
  fork : A.take (A.length - 1) = B.take (A.length - 1)
  reaches : A.length - 1 ≤ B.length
  last : A[A.length - 1]? = some raw
  missing : ∀ b, B[A.length - 1]? = some b → blockHash D b ≠ blockHash D raw

theorem Replaced.onWay_steppedBack (h : Replaced D A B s env raw) {raw' : RawBlock}
    (hraw' : B[A.length - 1 - 1]? = some raw') :
    OnWay D B (reorgUndo D A B s) (A.length - 1 - 1) (steppedBack D A s raw') := by
  have hlen := h.length
  refine onWay_undoAbove ((h.consistent.live.rolledBack _ _).setTip _) ?_
    ⟨_, UtxoStore.tip_setTip _ _, raw', hraw', rfl⟩
  change replay D (A.take (A.length - 1)) = _
  rw [h.fork, show A.length - 1 - 1 + 1 = A.length - 1 by omega]

/-- The run that is not cut off. -/
theorem Replaced.arrives (h : Replaced D A B s env raw) :
    Arrived D B (reorgUndo D A B s) (catchUp env (.start s)) := by
  have hlen := h.length
  have hreaches := h.reaches
  have hraw' : B[A.length - 1 - 1]? = some _ := List.getElem?_eq_getElem (by omega)
  obtain ⟨w', hw', hstore⟩ := h.undisturbed.catchUp_reorg h.oldValid
    h.consistent.toHoldsChain (by omega) h.depth h.last h.missing h.newValid hraw'
  rw [hw']
  refine (h.onWay_steppedBack hraw').arrived h.newValid ?_
  rw [show A.length - 1 - 1 + 1 = A.length - 1 by omega]
  exact hstore

/-- The disconnected tip cannot be disconnected again. -/
theorem Replaced.disconnected_stuck (h : Replaced D A B s env raw) :
    Fallible.wp (catchUp env) (fun _ _ => False) (fun _ w' => w'.store = disconnected D A s)
      (.start (disconnected D A s)) := by
  have hlen := h.length
  have hbound := h.oldValid.length_lt
  obtain ⟨tip, htip, raw₀, hraw₀, rfl⟩ := h.consistent.tip
  obtain rfl := Option.some.inj (hraw₀.symm.trans h.last)
  refine catchUp_stuck h.undisturbed.servesOrFails htip (by omega) (by omega) h.missing (.inr ?_)
  exact Function.update_self _ _ _

/-- The stepping back of a cut run: the tip it reaches is on `B`. -/
theorem Replaced.wp_stepBack (h : Replaced D A B s env raw) {env' : TrackerEnv} {w : World}
    (hstore : w.store = disconnected D A s) (hserves : Serves D B (env'.node w.calls))
    {Q : TipState → World → Prop} {E : TrackerStop → World → Prop}
    (hcut : ∀ e w', w'.store = disconnected D A s → env'.writeFault w.writes ≠ none → E e w')
    (hnext : ∀ prev w', TipOn D B (A.length - 1 - 1) prev →
      OnWay D B (reorgUndo D A B s) (A.length - 1 - 1) w'.store → w'.writes = w.writes + 1 →
      w'.calls = w.calls + 1 → env'.writeFault w.writes = none → Q prev w') :
    Fallible.wp (stepBack env' (tipOf D (A.length - 1) raw)) Q E w := by
  have hlen := h.length
  have hreaches := h.reaches
  have hbound := h.oldValid.length_lt
  have hraw' : B[A.length - 1 - 1]? = some _ := List.getElem?_eq_getElem (by omega)
  have hprev : (tipOf D (A.length - 1) raw).height - 1 = UInt32.ofNat (A.length - 1 - 1) :=
    ofNat_sub_one (by omega) (by omega)
  have hanswer := hserves.blockHash _ _ hraw'
  rw [← hprev] at hanswer
  refine Fallible.wp_mono (stepBack_outcome hanswer) ?_ ?_
  · rintro prev w₁ ⟨rfl, hstore₁, hwrites, hcalls, hfault⟩
    refine hnext _ w₁ ⟨_, hraw', by rw [hprev]; rfl⟩ ?_ hwrites hcalls hfault
    rw [hstore₁, hstore, hprev]
    exact h.onWay_steppedBack hraw'
  · rintro e w₁ ⟨hstore₁, hfault⟩
    exact hcut e w₁ (hstore₁.trans hstore) hfault

/-- The process dies. -/
theorem Replaced.wp_dies (h : Replaced D A B s env raw) (write : Nat) :
    Fallible.wp (catchUp ((Interruption.dies write).env env)) (fun _ _ => True)
      (fun _ w' => (write = 0 ∧ w'.store = s) ∨ (write = 1 ∧ w'.store = disconnected D A s) ∨
        (write ≠ 1 ∧ CutOnWay D B (reorgUndo D A B s)
          (SafeWrite D B (A.length - 1) 2 write) w'.store)) (.start s) := by
  have hlen := h.length
  have hbound := h.oldValid.length_lt
  have henv := h.undisturbed
  have hnode := Interruption.servesOrFails henv (.dies write)
  have hserves : ∀ i, Serves D B (((Interruption.dies write).env env).node i) := henv.serves
  have hdigests : ((Interruption.dies write).env env).digests = D := henv.digests
  have hdepth : 0 < ((Interruption.dies write).env env).maxReorgDepth := h.depth
  have hfault := Interruption.writeFault_dies henv write
  refine wp_catchUp_reorg h.oldValid h.consistent.toHoldsChain (by omega) hdepth h.last
    (hserves 0).blockCount (hnode.not_hasTip (by omega) h.missing) ?_ ?_
  · intro e w' hstore hcut
    exact .inl ⟨(not_not.mp fun hne => hcut ((hfault 0).mpr hne)).symm, hstore⟩
  · intro w' hstore hwrites hcalls
    refine h.wp_stepBack hstore (hserves _) ?_ ?_
    · intro e w₁ hstore₁ hcut
      rw [hwrites] at hcut
      exact .inr (.inl ⟨(not_not.mp fun hne => hcut ((hfault 1).mpr hne)).symm, hstore₁⟩)
    · intro prev w₁ htip hon hwrites₁ _ hgone
      rw [hwrites, hfault] at hgone
      have hhas : HasTip ((Interruption.dies write).env env) w₁ prev :=
        .of_serves h.newValid (hserves _) htip
      rw [Fallible.wp_bind, wp_walkBack_of_hasTip (by omega) hhas]
      refine Fallible.wp_mono (applyForward_outcome (w := w₁.asked _) hdigests h.newValid hnode
        hon.live htip) (fun _ _ _ => trivial) ?_
      intro _ w₂ hstop
      have htwo : (w₁.asked prev.height).writes = 2 := by
        change w₁.writes = 2
        rw [hwrites₁, hwrites]
      have hcut := OnWay.cut_dies (w := w₁.asked prev.height) hon h.newValid henv hstop
      rw [show A.length - 1 - 1 + 1 = A.length - 1 by omega, htwo] at hcut
      exact .inr (.inr ⟨Ne.symm hgone, hcut⟩)

/-- The undo record below the replaced block. -/
theorem Replaced.record_below (h : Replaced D A B s env raw) {t : UtxoStore}
    (hon : OnWay D B (reorgUndo D A B s) (A.length - 1 - 1) t) :
    t.db.undo (UInt32.ofNat (A.length - 1 - 1)) = none ∨
      t.db.undo (UInt32.ofNat (A.length - 1 - 1)) = undoRecord D B (A.length - 1 - 1) := by
  have hlen := h.length
  have hbound := h.oldValid.length_lt
  have hnat : (UInt32.ofNat (A.length - 1 - 1)).toNat = A.length - 1 - 1 :=
    toNat_ofNat_height (by omega)
  have hne : UInt32.ofNat (A.length - 1 - 1) ≠ UInt32.ofNat (A.length - 1) := by
    rw [ne_eq, eq_ofNat_iff (by omega), hnat]
    omega
  have htake : A.take (A.length - 1 - 1 + 1) = B.take (A.length - 1 - 1 + 1) := by
    rw [show A.length - 1 - 1 + 1 = A.length - 1 by omega]
    exact h.fork
  rw [hon.behind _ (by omega), reorgUndo, undoAbove, if_neg (by omega), disconnected,
    UtxoStore.rolledBack_undo, Function.update_of_ne hne, ← undoRecord_of_take_eq htake]
  exact h.consistent.records _ (by omega)

/-- The rest of the run after the step back, when a later call fails. -/
theorem Replaced.wp_afterStepBack (h : Replaced D A B s env raw) {call : Nat} {e : RpcError}
    {prev : TipState} {w : World} (htip : TipOn D B (A.length - 1 - 1) prev)
    (hon : OnWay D B (reorgUndo D A B s) (A.length - 1 - 1) w.store) :
    Fallible.wp (Tracker.walkBack ((Interruption.rpcFails call e).env env) (A.length - 1) 1 prev >>=
        Tracker.applyForward ((Interruption.rpcFails call e).env env)
          (UInt32.ofNat (B.length - 1)))
      (fun _ _ => True) (fun _ w' => ∃ j, OnWay D B (reorgUndo D A B s) j w'.store) w := by
  have hlen := h.length
  have henv := h.undisturbed
  have hdigests : ((Interruption.rpcFails call e).env env).digests = D := henv.digests
  by_cases hcall : w.calls = call
  · have hfails : Fails (((Interruption.rpcFails call e).env env).node w.calls) := by
      rw [hcall, Interruption.node_rpcFails]
      exact NodeView.fails_failing e
    refine hon.spurious h.newValid hdigests hfails (fun i hi => ?_) henv.writes htip
      (h.record_below hon) (by omega)
    exact Interruption.serves_of_ne henv e (fun heq => hi (heq.trans hcall.symm))
  · have hhas : HasTip ((Interruption.rpcFails call e).env env) w prev :=
      .of_serves h.newValid (Interruption.serves_of_ne henv e hcall) htip
    rw [Fallible.wp_bind, wp_walkBack_of_hasTip (by omega) hhas]
    exact OnWay.applyForward (w := w.asked _) hon h.newValid hdigests
      (Interruption.servesOrFails henv (.rpcFails call e)) henv.writes htip

/-- A call fails. -/
theorem Replaced.wp_rpcFails (h : Replaced D A B s env raw) (call : Nat) (e : RpcError) :
    Fallible.wp (catchUp ((Interruption.rpcFails call e).env env)) (fun _ _ => True)
      (fun _ w' => (call = 2 ∧ w'.store = disconnected D A s) ∨
        (call ≠ 2 ∧ (w'.store = s ∨ ∃ j, OnWay D B (reorgUndo D A B s) j w'.store)))
      (.start s) := by
  have hlen := h.length
  have hbound := h.oldValid.length_lt
  have henv := h.undisturbed
  have hnode := Interruption.servesOrFails henv (.rpcFails call e)
  have hdigests : ((Interruption.rpcFails call e).env env).digests = D := henv.digests
  have hdepth : 0 < ((Interruption.rpcFails call e).env env).maxReorgDepth := h.depth
  by_cases hzero : call = 0
  · subst hzero
    rw [wp_catchUp_of_error (w := World.start s) (e := e)
      (by rw [show (World.start s).calls = 0 from rfl, Interruption.node_rpcFails]; rfl)]
    exact .inr ⟨by decide, .inl rfl⟩
  · refine wp_catchUp_reorg h.oldValid h.consistent.toHoldsChain (by omega) hdepth h.last
      (Interruption.serves_of_ne henv e (Ne.symm hzero)).blockCount
      (hnode.not_hasTip (by omega) h.missing) (fun _ _ _ hcut => absurd (henv.writes 0) hcut) ?_
    intro w' hstore hwrites hcalls
    by_cases htwo : call = 2
    · subst htwo
      have hanswer : (((Interruption.rpcFails 2 e).env env).node w'.calls).blockHash
          ((tipOf D (A.length - 1) raw).height - 1) = .error e := by
        rw [hcalls, Interruption.node_rpcFails]
        rfl
      rw [stepBack_error hanswer]
      exact .inl ⟨rfl, hstore⟩
    · refine h.wp_stepBack hstore (Interruption.serves_of_ne henv e (by omega))
        (fun _ _ _ hcut => absurd (henv.writes _) hcut) ?_
      intro prev w₁ htip hon _ _ _
      exact Fallible.wp_mono (h.wp_afterStepBack htip hon) (fun _ _ _ => trivial)
        fun _ _ hj => .inr ⟨htwo, .inr hj⟩

end Replaced

/-! ## Both cases -/

section Recovers

variable {D : Digests} {A B : List RawBlock} {s : UtxoStore} {env later : TrackerEnv}
  {cut : Interruption} {e : TrackerStop} {w' : World}

theorem take_succ_eq_of_keepsTip (hfork : A.take (A.length - 1) = B.take (A.length - 1))
    (hkeeps : KeepsTip A B) : A.take (A.length - 1 + 1) = B.take (A.length - 1 + 1) := by
  rw [List.take_add_one, List.take_add_one (l := B), hfork, hkeeps]

/-- The node has the tip of `A`: the cut run is one along `B`. -/
theorem recovered_iff_of_keepsTip (hB : ValidChain D B) (hpos : 0 < A.length)
    (hs : Consistent D A s) (hfork : A.take (A.length - 1) = B.take (A.length - 1))
    (hkeeps : KeepsTip A B) (henv : Undisturbed D B env) (hlater : Undisturbed D B later)
    (hrun : catchUp (cut.env env) (.start s) = (.error e, w')) :
    Recovered (catchUp later (.start w'.store)) (catchUp env (.start s)) ↔ cut.Safe D A B := by
  have hlast : A.length - 1 + 1 = A.length := by omega
  have htake := take_succ_eq_of_keepsTip hfork hkeeps
  have hon : OnWay D B (undoAbove D B (A.length - 1) s.db.undo) (A.length - 1) s := by
    refine onWay_undoAbove hs.live ?_ ?_
    · rw [← htake, hlast, List.take_length]
      exact hs.utxo
    · obtain ⟨tip, htip, raw, hraw, rfl⟩ := hs.tip
      exact ⟨_, htip, raw, hkeeps.trans hraw, rfl⟩
  have href := hon.arrives hB henv
  cases cut with
  | dies write =>
      have hcut := Fallible.of_wp_error (hon.wp_dies hB henv write) hrun
      rw [hcut.recovered_iff hB hlater href, Interruption.Safe, if_pos hkeeps, hlast]
  | rpcFails call err =>
      have hrecord := hs.records (A.length - 1) (by omega)
      rw [undoRecord_of_take_eq htake] at hrecord
      obtain ⟨j, hj⟩ := Fallible.of_wp_error (hon.wp_rpcFails hB henv hrecord call err) hrun
      exact iff_of_true ((hj.arrives hB hlater).recovered href) (.inl hkeeps)

/-- The node has another block there, or none. -/
theorem Replaced.recovered_iff {raw : RawBlock} (h : Replaced D A B s env raw)
    (hlater : Replaced D A B s later raw) (hkeeps : ¬KeepsTip A B)
    (hrun : catchUp (cut.env env) (.start s) = (.error e, w')) :
    Recovered (catchUp later (.start w'.store)) (catchUp env (.start s)) ↔ cut.Safe D A B := by
  have hlen := h.length
  have href := h.arrives
  have hstuck : ¬Recovered (catchUp later (.start (disconnected D A s))) (catchUp env (.start s)) :=
    not_recovered_of_wp hlater.disconnected_stuck
  cases cut with
  | dies write =>
      rw [Interruption.Safe, if_neg hkeeps]
      rcases Fallible.of_wp_error (h.wp_dies write) hrun with
        ⟨rfl, hstore⟩ | ⟨rfl, hstore⟩ | ⟨hne, hcut⟩
      · rw [hstore]
        refine iff_of_true (hlater.arrives.recovered href) ⟨by decide, ?_⟩
        intro j raw block _ _ _ heq
        omega
      · rw [hstore]
        exact iff_of_false hstuck fun hsafe => hsafe.1 rfl
      · rw [hcut.recovered_iff h.newValid hlater.undisturbed href]
        exact (and_iff_right hne).symm
  | rpcFails call err =>
      rcases Fallible.of_wp_error (h.wp_rpcFails call err) hrun with
        ⟨rfl, hstore⟩ | ⟨hne, hstore | ⟨j, hj⟩⟩
      · rw [hstore]
        exact iff_of_false hstuck fun hsafe => hsafe.elim hkeeps fun hne => hne rfl
      · rw [hstore]
        exact iff_of_true (hlater.arrives.recovered href) (.inr hne)
      · exact iff_of_true ((hj.arrives h.newValid hlater.undisturbed).recovered href) (.inr hne)

end Recovers

/-- A store consistent with `A`, a node that serves `B`, forked at most one block
below the tip of `A`, and a run cut off once.  A later run ends like a run that was
not cut off if and only if the node keeps the tip of `A` or may be followed one
block back, and the cut is safe. -/
theorem catchUp_recovers_iff_safe (D : Digests) (A B : List RawBlock) (ancestor : Nat)
    (s : UtxoStore) (env later : TrackerEnv) (cut : Interruption) (hA : ValidChain D A)
    (hB : ValidChain D B) (hshared : SharedHashes D A B) (hancestorA : ancestor < A.length)
    (hancestorB : ancestor < B.length) (hcommon : A.take (ancestor + 1) = B.take (ancestor + 1))
    (hone : A.length - 1 - ancestor ≤ 1) (hs : Consistent D A s) (henv : Undisturbed D B env)
    (hlater : Undisturbed D B later) (hdepth : later.maxReorgDepth = env.maxReorgDepth)
    (hcut : (catchUp (cut.env env) (.start s)).1 ≠ .ok ()) :
    Recovered (catchUp later (.start (catchUp (cut.env env) (.start s)).2.store))
        (catchUp env (.start s)) ↔
      (KeepsTip A B ∨ 0 < env.maxReorgDepth) ∧ cut.Safe D A B := by
  have hbound := hA.length_lt
  obtain ⟨e, w', hrun⟩ : ∃ e w', catchUp (cut.env env) (.start s) = (.error e, w') := by
    rcases hres : catchUp (cut.env env) (.start s) with ⟨e | _, w'⟩
    · exact ⟨e, w', rfl⟩
    · rw [hres] at hcut
      exact absurd rfl hcut
  have hfork : A.take (A.length - 1) = B.take (A.length - 1) :=
    take_eq_of_le hcommon (by omega)
  rw [hrun]
  by_cases hkeeps : KeepsTip A B
  · rw [recovered_iff_of_keepsTip hB (by omega) hs hfork hkeeps henv hlater hrun]
    exact (and_iff_right (.inl hkeeps)).symm
  · have hlen : 1 < A.length := by
      by_contra hnot
      obtain rfl : ancestor = A.length - 1 := by omega
      exact hkeeps (getElem?_eq_of_take_eq hcommon (Nat.lt_succ_self _)).symm
    obtain ⟨tip, htip, raw, hraw, rfl⟩ := hs.tip
    have hmiss : ∀ b, B[A.length - 1]? = some b → blockHash D b ≠ blockHash D raw := by
      intro b hb hhash
      obtain rfl := hshared raw (List.mem_of_getElem? hraw) b (List.mem_of_getElem? hb) hhash.symm
      exact hkeeps (hb.trans hraw.symm)
    by_cases hmax : 0 < env.maxReorgDepth
    · have hreplaced : Replaced D A B s env raw :=
        ⟨hA, hB, hs, henv, hmax, hlen, hfork, by omega, hraw, hmiss⟩
      have hreplaced' : Replaced D A B s later raw :=
        ⟨hA, hB, hs, hlater, by omega, hlen, hfork, by omega, hraw, hmiss⟩
      rw [hreplaced.recovered_iff hreplaced' hkeeps hrun]
      exact (and_iff_right (.inr hmax)).symm
    · -- Neither run may disconnect anything.
      have hzero : (cut.env env).maxReorgDepth = 0 := by
        cases cut <;> exact Nat.eq_zero_of_not_pos hmax
      have hstore := Fallible.of_wp_error (catchUp_stuck
        (Interruption.servesOrFails henv cut) htip (by omega) (by omega) hmiss (.inl hzero)) hrun
      rw [hstore]
      refine iff_of_false (not_recovered_of_wp (catchUp_stuck hlater.servesOrFails htip (by omega)
        (by omega) hmiss (.inl (by omega)))) ?_
      rintro ⟨hkeeps' | hmax', -⟩
      · exact hkeeps hkeeps'
      · exact hmax hmax'

/-! ## Concrete interruptions -/

theorem consistent_chainStore {D : Digests} {A : List RawBlock} (hne : A ≠ [])
    (hlen : A.length < 2 ^ 32) : Consistent D A (chainStore D A) :=
  have hholds := holdsChain_chainStore (D := D) hne hlen
  { live := hholds.live
    utxo := hholds.utxo
    tip := hholds.tip
    undo := fun height _ hlt => chainStore_undo (by omega)
    records := fun height hlt => .inr (chainStore_undo (by omega)) }

/-- The process dies after the step back, before the first block is applied. -/
theorem catchUp_recovers_iff_safe_sample :
    Recovered (catchUp (quietEnv treeDigests newChain) (.start
        (catchUp ((Interruption.dies 2).env (quietEnv treeDigests newChain))
          (.start (chainStore treeDigests (oldChain.take 2)))).2.store))
      (catchUp (quietEnv treeDigests newChain)
        (.start (chainStore treeDigests (oldChain.take 2)))) := by
  have henv := undisturbed_quietEnv (by decide) newChain_hashes_nodup
  refine (catchUp_recovers_iff_safe treeDigests (oldChain.take 2) newChain 0 _ _ _ (.dies 2)
    (by decide +kernel) newChain_valid (by decide +kernel) (by decide) (by decide)
    (by decide +kernel) (by decide) (consistent_chainStore (by simp [oldChain]) (by decide))
    henv henv rfl (by decide +kernel)).mpr ⟨.inr (by decide), ?_⟩
  rw [Interruption.Safe, if_neg (by decide +kernel)]
  refine ⟨by decide, ?_⟩
  intro j raw block _ _ _ heq
  omega

/-- The process dies between the disconnect and the tip record below: the second run
finds no undo record for the tip it still has. -/
theorem catchUp_dies_after_disconnect_stuck :
    (ValidChain treeDigests (oldChain.take 2) ∧ ValidChain treeDigests newChain ∧
      SharedHashes treeDigests (oldChain.take 2) newChain ∧
      (oldChain.take 2).take 1 = newChain.take 1 ∧
      Consistent treeDigests (oldChain.take 2) (chainStore treeDigests (oldChain.take 2)) ∧
      Undisturbed treeDigests newChain (quietEnv treeDigests newChain)) ∧
    (catchUp ((Interruption.dies 1).env (quietEnv treeDigests newChain))
      (.start (chainStore treeDigests (oldChain.take 2)))).1 = .error .died ∧
    (catchUp (quietEnv treeDigests newChain) (.start
      (catchUp ((Interruption.dies 1).env (quietEnv treeDigests newChain))
        (.start (chainStore treeDigests (oldChain.take 2)))).2.store)).1 =
      .error (.utxo (.error (.noUndo 1))) ∧
    ¬Recovered (catchUp (quietEnv treeDigests newChain) (.start
        (catchUp ((Interruption.dies 1).env (quietEnv treeDigests newChain))
          (.start (chainStore treeDigests (oldChain.take 2)))).2.store))
      (catchUp (quietEnv treeDigests newChain)
        (.start (chainStore treeDigests (oldChain.take 2)))) := by
  have hstuck : (catchUp (quietEnv treeDigests newChain) (.start
      (catchUp ((Interruption.dies 1).env (quietEnv treeDigests newChain))
        (.start (chainStore treeDigests (oldChain.take 2)))).2.store)).1 =
      .error (.utxo (.error (.noUndo 1))) := by decide +kernel
  refine ⟨⟨by decide +kernel, newChain_valid, by decide +kernel, by decide +kernel,
    consistent_chainStore (by simp [oldChain]) (by decide),
    undisturbed_quietEnv (by decide) newChain_hashes_nodup⟩, by decide +kernel, hstuck, ?_⟩
  intro hrecovered
  have hreturned := hrecovered.returned
  rw [hstuck] at hreturned
  exact nomatch hreturned

end Bidx
