import Bidx.Live.Reorg

/-!
# Interrupted runs on one chain

A run is cut off once: the process dies before one durable write, or one RPC call
fails.  From a store on the node's chain `B` it leaves one of two states:

* a store on the way along `B`, table and tip and undo records all of one height;
* a block of `B` applied without its tip record: a second run applies it again and
  writes an undo record that has lost the outputs it spent.
-/

namespace Bidx

open KeyValue Tracker

/-- Where a run is cut off. -/
inductive Interruption where
  | dies (write : Nat)
  | rpcFails (call : Nat) (e : RpcError)

/-- A view of a node that answers every call with an error. -/
def NodeView.failing (e : RpcError) : NodeView := ⟨.error e, fun _ => .error e, fun _ => .error e⟩

theorem NodeView.fails_failing (e : RpcError) : Fails (.failing e) :=
  ⟨⟨e, rfl⟩, fun _ => ⟨e, rfl⟩, fun _ => ⟨e, rfl⟩⟩

/-- The surroundings of the cut run. -/
def Interruption.env (env : TrackerEnv) : Interruption → TrackerEnv
  | .dies write =>
      { env with writeFault := fun i => if i = write then some .died else env.writeFault i }
  | .rpcFails call e =>
      { env with node := fun i => if i = call then .failing e else env.node i }

/-- A later run has made up for the interruption. -/
structure Recovered (run uninterrupted : Except TrackerStop Unit × World) : Prop where
  returned : run.1 = .ok ()
  utxo : run.2.store.db.utxo = uninterrupted.2.store.db.utxo
  tip : run.2.store.tip = uninterrupted.2.store.tip
  undo : run.2.store.db.undo = uninterrupted.2.store.db.undo

/-! ## Stores on the way -/

/-- A store at a height of `B` from where following `B` ends with the undo records
`undo`. -/
structure OnWay (D : Digests) (B : List RawBlock) (undo : UInt32 → Option (List UInt8))
    (height : Nat) (s : UtxoStore) : Prop where
  live : s.Live
  utxo : s.db.utxo = replay D (B.take (height + 1))
  tip : ∃ tip, s.tip = some tip ∧ TipOn D B height tip
  behind : ∀ x : UInt32, ¬(height < x.toNat ∧ x.toNat < B.length) → s.db.undo x = undo x
  ahead : ∀ x : UInt32, height < x.toNat → x.toNat < B.length → undo x = undoRecord D B x.toNat

/-- The end of the way. -/
structure Arrived (D : Digests) (B : List RawBlock) (undo : UInt32 → Option (List UInt8))
    (run : Except TrackerStop Unit × World) : Prop where
  returned : run.1 = .ok ()
  utxo : run.2.store.db.utxo = replay D B
  tip : ∃ tip, run.2.store.tip = some tip ∧ TipOn D B (B.length - 1) tip
  undo : run.2.store.db.undo = undo

section OnWay

variable {D : Digests} {B : List RawBlock} {undo : UInt32 → Option (List UInt8)} {height : Nat}
  {s : UtxoStore} {env : TrackerEnv}

theorem OnWay.lt (h : OnWay D B undo height s) : height < B.length := by
  obtain ⟨-, -, raw, hraw, -⟩ := h.tip
  exact (List.getElem?_eq_some_iff.mp hraw).1

/-- Further along. -/
theorem OnWay.followed (h : OnWay D B undo height s) (hB : ValidChain D B) {count : Nat}
    (hlen : height + 1 + count ≤ B.length) :
    OnWay D B undo (height + count) (s.followed D B (height + 1) count) := by
  obtain ⟨tip, htip, hon⟩ := h.tip
  constructor
  case live => exact h.live.followed _ _
  case utxo =>
    rw [followed_utxo h.utxo hlen, show height + count + 1 = height + 1 + count by omega]
  case tip => exact tip_followed hB htip hon hlen
  case behind =>
    intro x hx
    rw [followed_undo hB h.utxo hlen]
    by_cases hin : height + 1 ≤ x.toNat ∧ x.toNat < height + 1 + count
    · rw [if_pos hin, h.ahead x (by omega) (by omega)]
    · rw [if_neg hin]
      exact h.behind x (by omega)
  case ahead =>
    intro x hlt hx
    exact h.ahead x (by omega) hx

/-- Having followed `B` to its end. -/
theorem OnWay.arrived (h : OnWay D B undo height s) (hB : ValidChain D B) {w' : World}
    (hstore : w'.store = s.followed D B (height + 1) (B.length - (height + 1))) :
    Arrived D B undo (.ok (), w') := by
  obtain ⟨tip, htip, hon⟩ := h.tip
  have hlt := h.lt
  have hcount : height + 1 + (B.length - (height + 1)) ≤ B.length := by omega
  have hend := h.followed hB hcount
  constructor
  case returned => rfl
  case utxo =>
    rw [hstore]
    exact followed_utxo_end h.utxo (by omega)
  case tip =>
    rw [hstore]
    exact tip_followed_end hB htip hon
  case undo =>
    funext x
    rw [hstore]
    exact hend.behind x (by omega)

/-- To the end. -/
theorem OnWay.arrives (h : OnWay D B undo height s) (hB : ValidChain D B)
    (henv : Undisturbed D B env) : Arrived D B undo (catchUp env (.start s)) := by
  obtain ⟨tip, htip, hon⟩ := h.tip
  obtain ⟨w', hw', hstore⟩ := henv.catchUp_onChain (w := .start s) hB h.live htip hon
  rw [hw']
  exact h.arrived hB hstore

/-- Two runs that arrive end alike. -/
theorem Arrived.recovered {run run' : Except TrackerStop Unit × World}
    (h : Arrived D B undo run) (h' : Arrived D B undo run') : Recovered run run' := by
  obtain ⟨tip, htip, raw, hraw, rfl⟩ := h.tip
  obtain ⟨tip', htip', raw', hraw', rfl⟩ := h'.tip
  obtain rfl := Option.some.inj (hraw.symm.trans hraw')
  exact ⟨h.returned, h.utxo.trans h'.utxo.symm, htip.trans htip'.symm, h.undo.trans h'.undo.symm⟩

section Reapplied

variable {raw : RawBlock} {block : FullBlock}

/-- A block over the table of the chain below it. -/
theorem tableAfter_take (hraw : B[height]? = some raw)
    (hparse : parseAt D raw height = .ok block) :
    tableAfter (UInt32.ofNat height) block (replay D (B.take height)) =
      replay D (B.take (height + 1)) := by
  rw [replay_take_succ D hraw, tableStep_of_parse hparse]

/-- The same block once more leaves the table. -/
theorem ValidChain.tableAfter_take_succ (hB : ValidChain D B) (hraw : B[height]? = some raw)
    (hparse : parseAt D raw height = .ok block) :
    tableAfter (UInt32.ofNat height) block (replay D (B.take (height + 1))) =
      replay D (B.take (height + 1)) := by
  obtain ⟨block', hparse', hover⟩ := hB.valid _ _ hraw
  obtain rfl := Except.ok.inj (hparse'.symm.trans hparse)
  rw [tableAfter_eq _ (parseAt_shape hparse) hover.spent_nodup (hB.decodes _),
    hB.replay_succ hraw hparse, blockTable_reapply]

variable (h : OnWay D B undo height s) (hraw : B[height + 1]? = some raw)
  (hparse : parseAt D raw (height + 1) = .ok block)

include h hraw hparse

/-- The second run begins with the block applied once more. -/
theorem OnWay.reapplied_utxo (hB : ValidChain D B) :
    ((s.advanced (UInt32.ofNat (height + 1)) block).follow D (height + 1) raw).db.utxo =
      replay D (B.take (height + 1 + 1)) := by
  rw [UtxoStore.follow_of_parse hparse, UtxoStore.setTip_utxo, UtxoStore.advanced_utxo,
    UtxoStore.advanced_utxo, h.utxo, tableAfter_take hraw hparse,
    hB.tableAfter_take_succ hraw hparse]

/-- The undo record is taken of the table that has the block already. -/
theorem OnWay.reapplied_undo :
    ((s.advanced (UInt32.ofNat (height + 1)) block).follow D (height + 1) raw).db.undo =
      Function.update s.db.undo (UInt32.ofNat (height + 1))
        (undoAfter (UInt32.ofNat (height + 1)) block (replay D (B.take (height + 1 + 1)))) := by
  rw [UtxoStore.follow_of_parse hparse, UtxoStore.setTip_undo, UtxoStore.advanced_undo,
    UtxoStore.advanced_undo, UtxoStore.advanced_utxo, Function.update_idem, h.utxo,
    tableAfter_take hraw hparse]

end Reapplied

/-- A block applied without its tip record: the second run ends alike exactly when
the block spends no output of an earlier block. -/
theorem OnWay.halfway_recovered_iff (h : OnWay D B undo height s) (hB : ValidChain D B)
    (henv : Undisturbed D B env) {raw : RawBlock} {block : FullBlock}
    (hraw : B[height + 1]? = some raw) (hparse : parseAt D raw (height + 1) = .ok block)
    {run : Except TrackerStop Unit × World} (hrun : Arrived D B undo run) :
    Recovered (catchUp env (.start (s.advanced (UInt32.ofNat (height + 1)) block))) run ↔
      SpendsOwnOnly block := by
  have hlt : height + 1 < B.length := (List.getElem?_eq_some_iff.mp hraw).1
  have hbound := hB.length_lt
  obtain ⟨block', hparse', hover⟩ := hB.valid _ _ hraw
  obtain rfl := Except.ok.inj (hparse'.symm.trans hparse)
  obtain ⟨tip, htip, hon⟩ := h.tip
  obtain ⟨w', hw', hstore⟩ := henv.catchUp_onChain
    (w := .start (s.advanced (UInt32.ofNat (height + 1)) block')) hB (h.live.advanced _ _) htip hon
  have hnat : (UInt32.ofNat (height + 1)).toNat = height + 1 := toNat_ofNat_height (by omega)
  have hreapply := undoAfter_reapply_iff (UInt32.ofNat (height + 1)) (parseAt_shape hparse) hover
    (hB.decodes (height + 1))
  rw [tableAfter_take hraw hparse] at hreapply
  let t : UtxoStore := (s.advanced (UInt32.ofNat (height + 1)) block').follow D (height + 1) raw
  have htUtxo : t.db.utxo = replay D (B.take (height + 1 + 1)) := h.reapplied_utxo hraw hparse hB
  have htUndo : t.db.undo = Function.update s.db.undo (UInt32.ofNat (height + 1))
      (undoAfter (UInt32.ofNat (height + 1)) block' (replay D (B.take (height + 1 + 1)))) :=
    h.reapplied_undo hraw hparse
  have hfollow : w'.store = t.followed D B (height + 1 + 1) (B.length - (height + 1 + 1)) := by
    rw [hstore, show B.length - (height + 1) = B.length - (height + 1 + 1) + 1 by omega]
    exact (UtxoStore.followed_cons hraw _ _).symm
  have hcount : height + 1 + 1 + (B.length - (height + 1 + 1)) ≤ B.length := by omega
  have hundo : ∀ x : UInt32, w'.store.db.undo x =
      if height + 1 + 1 ≤ x.toNat ∧ x.toNat < B.length then undoRecord D B x.toNat
      else t.db.undo x := by
    intro x
    rw [hfollow, followed_undo hB htUtxo hcount,
      show height + 1 + 1 + (B.length - (height + 1 + 1)) = B.length by omega]
  have hrecord : undo (UInt32.ofNat (height + 1)) =
      undoAfter (UInt32.ofNat (height + 1)) block' (replay D (B.take (height + 1))) := by
    rw [h.ahead _ (by omega) (by omega), hnat, undoRecord, hraw]
    simp only [hparse]
  have htip' : ∃ tip', w'.store.tip = some tip' ∧ TipOn D B (B.length - 1) tip' := by
    rw [hfollow]
    exact tip_followed_end hB (UtxoStore.tip_follow hparse _) ⟨raw, hraw, rfl⟩
  rw [hw', ← hreapply]
  constructor
  · intro hrecovered
    have hx := congrFun (hrecovered.undo.trans hrun.undo) (UInt32.ofNat (height + 1))
    rw [hundo, if_neg (by omega), htUndo, Function.update_self, hrecord] at hx
    exact hx
  · intro heq
    have harrived : Arrived D B undo (.ok (), w') := by
      refine ⟨rfl, ?_, htip', ?_⟩
      · rw [hfollow]
        exact followed_utxo_end htUtxo (by omega)
      · funext x
        rw [hundo, htUndo]
        by_cases hin : height + 1 + 1 ≤ x.toNat ∧ x.toNat < B.length
        · rw [if_pos hin, h.ahead x (by omega) (by omega)]
        · rw [if_neg hin]
          by_cases hx : x = UInt32.ofNat (height + 1)
          · subst hx
            rw [Function.update_self, heq, hrecord]
          · have hne : x.toNat ≠ height + 1 := mt (eq_ofNat_iff (by omega)).mpr hx
            rw [Function.update_of_ne hx]
            exact h.behind x (by omega)
    exact harrived.recovered hrun

/-! ## What a cut leaves -/

/-- A store on the way, when the cut is safe; or a block applied without its tip
record, when the cut is safe exactly for a block that spends its own outputs only. -/
def CutOnWay (D : Digests) (B : List RawBlock) (undo : UInt32 → Option (List UInt8))
    (safe : Prop) (s : UtxoStore) : Prop :=
  (safe ∧ ∃ height, OnWay D B undo height s) ∨
    ∃ height t raw block, OnWay D B undo height t ∧ B[height + 1]? = some raw ∧
      parseAt D raw (height + 1) = .ok block ∧
      s = t.advanced (UInt32.ofNat (height + 1)) block ∧ (safe ↔ SpendsOwnOnly block)

theorem CutOnWay.recovered_iff {safe : Prop} (h : CutOnWay D B undo safe s)
    (hB : ValidChain D B) (henv : Undisturbed D B env)
    {run : Except TrackerStop Unit × World} (hrun : Arrived D B undo run) :
    Recovered (catchUp env (.start s)) run ↔ safe := by
  rcases h with ⟨hsafe, height, hon⟩ | ⟨height, t, raw, block, hon, hraw, hparse, rfl, hiff⟩
  · exact iff_of_true ((hon.arrives hB henv).recovered hrun) hsafe
  · rw [hiff]
    exact hon.halfway_recovered_iff hB henv hraw hparse hrun

/-- The forward loop cut off on the way. -/
theorem OnWay.cut {w w' : World} {safe : Prop} (h : OnWay D B undo height w.store)
    (hB : ValidChain D B) (hstop : StoppedForward D B env w height w')
    (hready : ∀ done, (∃ i, ¬Serves D B (env.node i)) ∨
      env.writeFault (w.writes + 2 * done) ≠ none → safe)
    (hhalf : ∀ done raw block, B[height + 1 + done]? = some raw →
      parseAt D raw (height + 1 + done) = .ok block →
      env.writeFault (w.writes + 2 * done + 1) ≠ none → (safe ↔ SpendsOwnOnly block)) :
    CutOnWay D B undo safe w'.store := by
  obtain ⟨done, hdone, ⟨hstore, hcause⟩ | ⟨raw, block, hraw, hparse, hstore, hcause⟩⟩ := hstop
  · refine .inl ⟨hready done hcause, height + done, ?_⟩
    rw [hstore]
    exact h.followed hB (by omega)
  · have hswap : height + 1 + done = height + done + 1 := by omega
    refine .inr ⟨height + done, _, raw, block, h.followed hB (by omega), hswap ▸ hraw,
      hswap ▸ hparse, ?_, hhalf done raw block hraw hparse hcause⟩
    rw [hstore, hswap]

/-- Stepping back from a block of `B` whose record is there stays on the way. -/
theorem OnWay.steppedBack (h : OnWay D B undo (height + 1) s) {raw : RawBlock}
    (hraw : B[height]? = some raw)
    (hrecord : s.db.undo (UInt32.ofNat (height + 1)) = undoRecord D B (height + 1))
    (hbound : B.length < 2 ^ 32) :
    OnWay D B undo height ((s.rolledBack (UInt32.ofNat (height + 1))
      (replay D (B.take (height + 1)))).setTip (tipOf D height raw)) := by
  have hlt := h.lt
  have hnat : (UInt32.ofNat (height + 1)).toNat = height + 1 := toNat_ofNat_height (by omega)
  constructor
  case live => exact (h.live.rolledBack _ _).setTip _
  case utxo => rfl
  case tip => exact ⟨_, UtxoStore.tip_setTip _ _, raw, hraw, rfl⟩
  case behind =>
    intro x hx
    have hne : x ≠ UInt32.ofNat (height + 1) := by
      rintro rfl
      omega
    rw [UtxoStore.setTip_undo, UtxoStore.rolledBack_undo, Function.update_of_ne hne]
    exact h.behind x (by omega)
  case ahead =>
    intro x hgt hx
    by_cases hxe : x.toNat = height + 1
    · obtain rfl : x = UInt32.ofNat (height + 1) := (eq_ofNat_iff (by omega)).mpr hxe
      rw [← h.behind _ (by omega), hrecord, hnat]
    · exact h.ahead x (by omega) hx

theorem disconnectTip_noUndo {w : World} {tip : TipState} {disconnects : Nat}
    {Q : Unit → World → Prop} {E : TrackerStop → World → Prop}
    (hnone : w.store.db.undo tip.height = none) (hE : ∀ e w', w'.store = w.store → E e w') :
    Fallible.wp (disconnectTip env disconnects tip) Q E w := by
  have hop : w.store.disconnectBlock .none tip.height =
      (.error (.error (.noUndo tip.height)), w.store) := by
    simp only [UtxoStore.disconnectBlock, hnone]
    simp only [RocksFaults.none, Bool.false_eq_true, if_false]
  refine wp_disconnectTip_of fun disconnectRequests events => ?_
  unfold durable Fallible.wp
  dsimp only
  rw [hop]
  exact hE _ _ rfl

end OnWay

/-! ## The cut run -/

section CutRun

variable {D : Digests} {A B : List RawBlock} {undo : UInt32 → Option (List UInt8)} {height : Nat}
  {s : UtxoStore} {env : TrackerEnv} {w : World} {tip : TipState} {safe : Prop}

theorem Fails.not_hasTip (hfails : Fails (env.node w.calls)) : ¬HasTip env w tip := by
  rintro ⟨hanswer, -⟩
  obtain ⟨e, he⟩ := hfails.blockHash tip.height
  rw [he] at hanswer
  contradiction

theorem ServesOrFails.not_hasTip (hnode : ServesOrFails D B env.node) {raw : RawBlock}
    (hheight : height < 2 ^ 32)
    (hmiss : ∀ b, B[height]? = some b → blockHash D b ≠ blockHash D raw) :
    ¬HasTip env w (tipOf D height raw) := by
  rcases hnode w.calls with hserves | hfails
  · exact Bidx.not_hasTip hserves hheight hmiss
  · exact hfails.not_hasTip

/-- The rest of a run from a tip on the way that the node has, when writes are not
cut off: whatever call fails, the store stays on the way. -/
theorem OnWay.applyForward (h : OnWay D B undo height w.store) (hB : ValidChain D B)
    (hdigests : env.digests = D) (hnode : ServesOrFails D B env.node)
    (hwrites : ∀ i, env.writeFault i = none) (htip : TipOn D B height tip) :
    Fallible.wp (Tracker.applyForward env (UInt32.ofNat (B.length - 1)) tip) (fun _ _ => True)
      (fun _ w' => ∃ j, OnWay D B undo j w'.store) w := by
  refine Fallible.wp_mono (applyForward_outcome hdigests hB hnode h.live htip)
    (fun _ _ _ => trivial) ?_
  rintro _ w' ⟨done, hdone, ⟨hstore, -⟩ | ⟨-, -, -, -, -, hfault⟩⟩
  · refine ⟨height + done, ?_⟩
    rw [hstore]
    exact h.followed hB (by omega)
  · exact absurd (hwrites _) hfault

/-- A failed comparison at a tip on the way disconnects a block of `B` for nothing;
the store stays on the way. -/
theorem OnWay.spurious (h : OnWay D B undo height w.store) (hB : ValidChain D B)
    (hdigests : env.digests = D) (hfails : Fails (env.node w.calls))
    (hserves : ∀ i, i ≠ w.calls → Serves D B (env.node i))
    (hwrites : ∀ i, env.writeFault i = none) (htip : TipOn D B height tip)
    (hrecord : w.store.db.undo (UInt32.ofNat height) = none ∨
      w.store.db.undo (UInt32.ofNat height) = undoRecord D B height)
    {rounds disconnects : Nat} (hrounds : height < rounds) :
    Fallible.wp (Tracker.walkBack env rounds disconnects tip >>=
        Tracker.applyForward env (UInt32.ofNat (B.length - 1))) (fun _ _ => True)
      (fun _ w' => ∃ j, OnWay D B undo j w'.store) w := by
  have hbound := hB.length_lt
  have hlt := h.lt
  have hnode : ServesOrFails D B env.node := by
    intro i
    by_cases hi : i = w.calls
    · exact .inr (hi ▸ hfails)
    · exact .inl (hserves i hi)
  obtain ⟨rounds, rfl⟩ := Nat.exists_eq_succ_of_ne_zero (by omega : rounds ≠ 0)
  have htip' := htip
  obtain ⟨raw, hraw, rfl⟩ := htip'
  rw [Tracker.walkBack, Fallible.wp_bind, Fallible.wp_bind]
  cases height with
  | zero =>
      rw [wp_walkRound, if_pos (.inr rfl)]
      exact h.applyForward (w := w.asked _) hB hdigests hnode hwrites htip
  | succ height =>
      have hheight := tipOf_height_ne_zero (D := D) (Nat.succ_pos height) (by omega) raw
      by_cases hdeep : env.maxReorgDepth ≤ disconnects
      · rw [wp_walkRound, if_neg (not_or.mpr ⟨hfails.not_hasTip, hheight⟩), if_pos hdeep]
        exact ⟨_, h⟩
      · rcases hrecord with hnone | hrecord
        · rw [wp_walkRound, if_neg (not_or.mpr ⟨hfails.not_hasTip, hheight⟩), if_neg hdeep]
          refine disconnectTip_noUndo (w := w.asked _) hnone fun _ w' hstore => ?_
          exact ⟨_, hstore ▸ h⟩
        · have hraw' : B[height]? = some _ := List.getElem?_eq_getElem (by omega)
          refine walkRound_disconnects hB (by omega) hraw h.utxo hrecord hfails.not_hasTip
            (by omega) (fun _ _ _ hfault => absurd (hwrites _) hfault) ?_
          intro w₁ hstore₁ hwrites₁ hcalls₁
          have hprev : (tipOf D (height + 1) raw).height - 1 = UInt32.ofNat height :=
            ofNat_sub_one (by omega) (by omega)
          have hanswer := (hserves w₁.calls (by omega)).blockHash _ _ hraw'
          rw [← hprev] at hanswer
          refine Fallible.wp_mono (stepBack_outcome hanswer) ?_
            fun _ _ hcut => absurd (hwrites _) hcut.2
          rintro prev w₂ ⟨rfl, hstore₂, -, hcalls₂, -⟩
          have hon : OnWay D B undo height w₂.store := by
            rw [hstore₂, hstore₁, hprev]
            exact h.steppedBack hraw' hrecord hbound
          have htip₂ : TipOn D B height
              ⟨(tipOf D (height + 1) raw).height - 1, Bidx.blockHash D B[height]⟩ :=
            ⟨_, hraw', by rw [hprev]; rfl⟩
          have hhas : HasTip env w₂ _ := .of_serves hB (hserves w₂.calls (by omega)) htip₂
          rw [wp_walkBack_of_hasTip (by omega) hhas]
          exact hon.applyForward (w := w₂.asked _) hB hdigests hnode hwrites htip₂

/-! ## Runs cut off on the way -/

theorem Interruption.servesOrFails (henv : Undisturbed D B env) (cut : Interruption) :
    ServesOrFails D B (cut.env env).node := by
  intro i
  cases cut with
  | dies write => exact .inl (henv.serves i)
  | rpcFails call e =>
      by_cases hi : i = call
      · refine .inr ?_
        change Fails (if i = call then NodeView.failing e else env.node i)
        rw [if_pos hi]
        exact NodeView.fails_failing e
      · refine .inl ?_
        change Serves D B (if i = call then NodeView.failing e else env.node i)
        rw [if_neg hi]
        exact henv.serves i

theorem Interruption.node_rpcFails (env : TrackerEnv) (call : Nat) (e : RpcError) :
    ((Interruption.rpcFails call e).env env).node call = .failing e := if_pos rfl

theorem Interruption.serves_of_ne (henv : Undisturbed D B env) {call i : Nat} (e : RpcError)
    (hne : i ≠ call) : Serves D B (((Interruption.rpcFails call e).env env).node i) := by
  change Serves D B (if i = call then NodeView.failing e else env.node i)
  rw [if_neg hne]
  exact henv.serves i

theorem Interruption.writeFault_dies (henv : Undisturbed D B env) (write i : Nat) :
    ((Interruption.dies write).env env).writeFault i = none ↔ i ≠ write := by
  change (if i = write then some .died else env.writeFault i) = none ↔ _
  by_cases hi : i = write
  · simp [hi]
  · simp [hi, henv.writes]

/-- The write that is cut off does not record the tip of a block that spends outputs
of earlier blocks; blocks are applied from `first` on, after `writes` other writes. -/
def SafeWrite (D : Digests) (B : List RawBlock) (first writes write : Nat) : Prop :=
  ∀ j raw block, first ≤ j → B[j]? = some raw → parseAt D raw j = .ok block →
    write = writes + 2 * (j - first) + 1 → SpendsOwnOnly block

/-- The forward loop of a process that dies. -/
theorem OnWay.cut_dies {w' : World} {write : Nat} (h : OnWay D B undo height w.store)
    (hB : ValidChain D B) (henv : Undisturbed D B env)
    (hstop : StoppedForward D B ((Interruption.dies write).env env) w height w') :
    CutOnWay D B undo (SafeWrite D B (height + 1) w.writes write) w'.store := by
  have hfault : ∀ i, ((Interruption.dies write).env env).writeFault i ≠ none → i = write :=
    fun i hi => not_not.mp fun hne => hi ((Interruption.writeFault_dies henv write i).mpr hne)
  refine h.cut hB hstop ?_ ?_
  · -- Between two rounds: the write counted is the first one of a round.
    rintro done (⟨i, hi⟩ | hi)
    · exact absurd (henv.serves i) hi
    · have hwrite := hfault _ hi
      intro j raw block hj _ _ heq
      omega
  · intro done raw block hraw hparse hi
    have hwrite := hfault _ hi
    constructor
    · intro hsafe
      exact hsafe (height + 1 + done) raw block (by omega) hraw hparse (by omega)
    · intro hown j raw' block' hj hraw' hparse' heq
      obtain rfl : j = height + 1 + done := by omega
      obtain rfl := Option.some.inj (hraw.symm.trans hraw')
      obtain rfl := Except.ok.inj (hparse.symm.trans hparse')
      exact hown

/-- The process dies in a run from a store on the way. -/
theorem OnWay.wp_dies (h : OnWay D B undo height s) (hB : ValidChain D B)
    (henv : Undisturbed D B env) (write : Nat) :
    Fallible.wp (catchUp ((Interruption.dies write).env env)) (fun _ _ => True)
      (fun _ w' => CutOnWay D B undo (SafeWrite D B (height + 1) 0 write) w'.store)
      (.start s) := by
  obtain ⟨tip, htip, hon⟩ := h.tip
  have hcount : (((Interruption.dies write).env env).node 0).blockCount = _ :=
    (henv.serves 0).blockCount
  rw [wp_catchUp_of_tip (w := World.start s) hcount htip]
  refine Fallible.wp_mono (reconcile_onChain henv.digests hB
    (Interruption.servesOrFails henv (.dies write)) (henv.serves _) h.live hon)
    (fun _ _ _ => trivial) ?_
  intro _ w' hstop
  exact OnWay.cut_dies (w := { World.start s with calls := 1 }) h hB henv hstop

/-- A call fails in a run from a store on the way. -/
theorem OnWay.wp_rpcFails (h : OnWay D B undo height s) (hB : ValidChain D B)
    (henv : Undisturbed D B env)
    (hrecord : s.db.undo (UInt32.ofNat height) = none ∨
      s.db.undo (UInt32.ofNat height) = undoRecord D B height) (call : Nat) (e : RpcError) :
    Fallible.wp (catchUp ((Interruption.rpcFails call e).env env)) (fun _ _ => True)
      (fun _ w' => ∃ j, OnWay D B undo j w'.store) (.start s) := by
  have hbound := hB.length_lt
  have hlt := h.lt
  have hdigests : ((Interruption.rpcFails call e).env env).digests = D := henv.digests
  have hnode := Interruption.servesOrFails henv (.rpcFails call e)
  obtain ⟨tip, htip, hon⟩ := h.tip
  by_cases hzero : call = 0
  · subst hzero
    rw [wp_catchUp_of_error (w := World.start s) (e := e)
      (by rw [show (World.start s).calls = 0 from rfl, Interruption.node_rpcFails]; rfl)]
    exact ⟨height, h⟩
  · rw [wp_catchUp_of_tip (w := World.start s)
      (Interruption.serves_of_ne henv e (Ne.symm hzero)).blockCount htip]
    unfold reconcile
    by_cases hone : call = 1
    · subst hone
      have hrounds : height < tip.height.toNat + 1 := by
        obtain ⟨raw, -, rfl⟩ := hon
        simp only [tipOf, UInt32.toNat_ofNat']
        omega
      have hfails : Fails (((Interruption.rpcFails 1 e).env env).node 1) := by
        rw [Interruption.node_rpcFails]
        exact NodeView.fails_failing e
      have hserves : ∀ i, i ≠ 1 → Serves D B (((Interruption.rpcFails 1 e).env env).node i) :=
        fun i hi => Interruption.serves_of_ne henv e hi
      exact OnWay.spurious (w := { World.start s with calls := 1 }) h hB hdigests hfails
        hserves henv.writes hon hrecord hrounds
    · have hhas : HasTip ((Interruption.rpcFails call e).env env)
          { World.start s with calls := (World.start s).calls + 1 } tip :=
        .of_serves hB (Interruption.serves_of_ne henv e (Ne.symm hone)) hon
      rw [Fallible.wp_bind, wp_walkBack_of_hasTip (Nat.zero_lt_succ _) hhas]
      exact OnWay.applyForward h hB hdigests hnode henv.writes hon

end CutRun

end Bidx
