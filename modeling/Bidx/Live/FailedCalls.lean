import Bidx.Live.Events
import Bidx.Live.Interruption

/-!
# Failed calls in the walk back

The loop asks the node for the hash at the stored tip's height and reads every error as a
node that has no such height.  A transport error therefore disconnects the tip, also when
the node has it.  Against a node whose best chain stays put, the blocks disconnected are
off that chain if and only if no such question fails while the stored tip is on it.
-/

namespace Bidx

open KeyValue Tracker

/-- The rounds a run's walk back begins: how many disconnects came before, the tip and the
world. -/
inductive InWalk (env : TrackerEnv) (s : UtxoStore) : Nat → TipState → World → Prop
  | first {tip : TipState} {nodeTip : UInt32} (count : (env.node 0).blockCount = .ok nodeTip)
      (stored : s.tip = some tip) : InWalk env s 0 tip { World.start s with calls := 1 }
  | next {disconnects : Nat} {tip prev : TipState} {w w' : World}
      (reached : InWalk env s disconnects tip w)
      (round : walkRound env disconnects tip w = (.ok (some prev), w')) :
      InWalk env s (disconnects + 1) prev w'

/-- The round calls `disconnect_block` at the tip's height. -/
def CallsDisconnect (env : TrackerEnv) (disconnects : Nat) (tip : TipState) (w : World) : Prop :=
  ¬HasTip env w tip ∧ tip.height ≠ 0 ∧ disconnects < env.maxReorgDepth

instance (env : TrackerEnv) (disconnects : Nat) (tip : TipState) (w : World) :
    Decidable (CallsDisconnect env disconnects tip w) :=
  inferInstanceAs (Decidable (_ ∧ _ ∧ _))

/-! ## What leaves the log of disconnects alone -/

section Log

variable {env : TrackerEnv}

theorem durable_keeps {α : Type} (op : UtxoStore → Except (Stop UtxoError) α × UtxoStore) :
    Fallible.Keeps World.disconnectRequests (durable env op) := fun w =>
  Fallible.after_of_wp (P := fun w' => w'.disconnectRequests = w.disconnectRequests)
    (wp_durable_of (fun _ _ _ => rfl) fun _ _ => rfl)

theorem stepBack_keeps (tip : TipState) :
    Fallible.Keeps World.disconnectRequests (stepBack env tip) := by
  refine Fallible.Keeps.bind (fun _ => rfl) fun answer => ?_
  refine Fallible.Keeps.bind (Fallible.keeps_ofExcept _ _) fun prevHash => ?_
  exact Fallible.Keeps.bind (durable_keeps _) fun _ => Fallible.keeps_pure _

theorem fetchNext_keeps (tip : TipState) :
    Fallible.Keeps World.disconnectRequests (fetchNext env tip) := by
  refine Fallible.Keeps.bind (fun _ => rfl) fun answer => ?_
  refine Fallible.Keeps.bind (Fallible.keeps_ofExcept _ _) fun hash => ?_
  refine Fallible.Keeps.bind (fun _ => rfl) fun answer => ?_
  refine Fallible.Keeps.bind (Fallible.keeps_ofExcept _ _) fun raw => ?_
  refine Fallible.Keeps.bind (Fallible.keeps_ofExcept _ _) fun header => ?_
  exact Fallible.Keeps.bind (Fallible.keeps_ofExcept _ _) fun block => Fallible.keeps_pure _

theorem forwardRound_keeps (tip : TipState) :
    Fallible.Keeps World.disconnectRequests (forwardRound env tip) := by
  refine Fallible.Keeps.bind (fetchNext_keeps tip) fun next => ?_
  refine Fallible.Keeps.bind ?_ fun res => ?_
  · refine Fallible.Keeps.bind (Fallible.keeps_modify fun _ => rfl) fun _ => ?_
    exact Fallible.Keeps.bind (Fallible.keeps_read _) fun writes => durable_keeps _
  · refine Fallible.Keeps.bind (durable_keeps _) fun _ => ?_
    exact Fallible.Keeps.bind (Fallible.keeps_modify fun _ => rfl) fun _ => Fallible.keeps_pure _

theorem forward_keeps (rounds : Nat) (tip : TipState) :
    Fallible.Keeps World.disconnectRequests (forward env rounds tip) := by
  induction rounds generalizing tip with
  | zero => exact Fallible.keeps_pure tip
  | succ rounds ih => exact Fallible.Keeps.bind (forwardRound_keeps tip) ih

theorem applyForward_keeps (nodeTip : UInt32) (ancestor : TipState) :
    Fallible.Keeps World.disconnectRequests (applyForward env nodeTip ancestor) :=
  Fallible.Keeps.bind (forward_keeps _ ancestor) fun _ => Fallible.keeps_modify fun _ => rfl

theorem startAtNodeTip_keeps (nodeTip : UInt32) :
    Fallible.Keeps World.disconnectRequests (startAtNodeTip env nodeTip) := by
  refine Fallible.Keeps.bind (fun _ => rfl) fun answer => ?_
  refine Fallible.Keeps.bind (Fallible.keeps_ofExcept _ _) fun hash => ?_
  exact Fallible.Keeps.bind (durable_keeps _) fun _ => Fallible.keeps_modify fun _ => rfl

/-- Disconnecting the tip is one call, whether it gets through or not. -/
theorem disconnectTip_logs (disconnects : Nat) (tip : TipState) (w : World) :
    (disconnectTip env disconnects tip w).2.disconnectRequests =
      w.disconnectRequests ++ [⟨w.store.tip, tip.height⟩] := by
  have hcall : Fallible.wp (disconnectTip env disconnects tip)
      (fun _ w' => w'.disconnectRequests = w.disconnectRequests ++ [⟨w.store.tip, tip.height⟩])
      (fun _ w' => w'.disconnectRequests = w.disconnectRequests ++ [⟨w.store.tip, tip.height⟩])
      w := by
    have hrest : ∀ events, Fallible.wp (do
        disconnectBlock env tip.height
        emit (.disconnected tip.height tip.hash) none)
        (fun _ w' => w'.disconnectRequests = w.disconnectRequests ++ [⟨w.store.tip, tip.height⟩])
        (fun _ w' => w'.disconnectRequests = w.disconnectRequests ++ [⟨w.store.tip, tip.height⟩])
        { w with events } := by
      intro events
      rw [Fallible.wp_bind, wp_disconnectBlock]
      exact wp_durable_of (fun _ _ _ => rfl) fun _ _ => rfl
    unfold disconnectTip
    rw [Fallible.wp_bind, announceReorg]
    split
    · exact hrest _
    · exact hrest w.events
  exact Fallible.after_of_wp hcall

end Log

section Rounds

variable {env : TrackerEnv} {s : UtxoStore} {disconnects : Nat} {tip : TipState} {w : World}

/-- A round that calls it disconnects the tip and steps back. -/
theorem walkRound_of_callsDisconnect (h : CallsDisconnect env disconnects tip w) :
    walkRound env disconnects tip w =
      (do
        disconnectTip env disconnects tip
        let prev ← stepBack env tip
        pure (some prev) : TrackerM (Option TipState)) (w.asked tip.height) := by
  obtain ⟨hhas, hzero, hdepth⟩ := h
  show (if _ then _ else _ : TrackerM (Option TipState)) (w.asked tip.height) = _
  rw [if_neg (fun hfound => hhas (hasTip_iff.mpr hfound)), if_neg hzero,
    if_neg (Nat.not_le.mpr hdepth)]

/-- Any other round leaves the store alone. -/
theorem walkRound_of_not_callsDisconnect (h : ¬CallsDisconnect env disconnects tip w) :
    (walkRound env disconnects tip w).2 = w.asked tip.height := by
  have hstays : Fallible.wp (walkRound env disconnects tip) (fun _ w' => w' = w.asked tip.height)
      (fun _ w' => w' = w.asked tip.height) w := by
    rw [wp_walkRound]
    split
    · rfl
    · rename_i hgo
      rw [not_or] at hgo
      have hdeep : env.maxReorgDepth ≤ disconnects := by
        by_contra hdepth
        exact h ⟨hgo.1, hgo.2, Nat.not_le.mp hdepth⟩
      rw [if_pos hdeep]
  rcases hround : walkRound env disconnects tip w with ⟨e | next, w'⟩
  · have hsame := Fallible.of_wp_error hstays hround
    exact hsame
  · have hsame := Fallible.of_wp_ok hstays hround
    exact hsame

/-- The calls of `disconnect_block` a round makes. -/
theorem walkRound_logs (env : TrackerEnv) (disconnects : Nat) (tip : TipState) (w : World) :
    (walkRound env disconnects tip w).2.disconnectRequests = w.disconnectRequests ++
      if CallsDisconnect env disconnects tip w then [⟨w.store.tip, tip.height⟩] else [] := by
  split
  · rename_i hcalls
    have hback : Fallible.Keeps World.disconnectRequests (do
        let prev ← stepBack env tip
        pure (some prev) : TrackerM (Option TipState)) :=
      Fallible.Keeps.bind (stepBack_keeps tip) fun _ => Fallible.keeps_pure _
    rw [walkRound_of_callsDisconnect hcalls]
    exact (Fallible.bind_keeps (fun _ => hback) _).trans (disconnectTip_logs _ _ _)
  · rename_i hcalls
    rw [walkRound_of_not_callsDisconnect hcalls, List.append_nil]
    rfl

/-- A round that goes on has stored a tip one height lower. -/
theorem walkRound_prev {prev : TipState} {w' : World} (hstored : w.store.tip = some tip)
    (h : walkRound env disconnects tip w = (.ok (some prev), w')) :
    w'.store.tip = some prev ∧ prev.height.toNat + 1 = tip.height.toNat := by
  have hsteps : Fallible.wp (walkRound env disconnects tip)
      (fun next w' => ∀ prev, next = some prev →
        w'.store.tip = some prev ∧ prev.height.toNat + 1 = tip.height.toNat)
      (fun _ _ => True) w := by
    rw [wp_walkRound]
    split
    · exact fun _ hnext => nomatch hnext
    · rename_i hgo
      rw [not_or] at hgo
      have hpos : tip.height.toNat ≠ 0 := fun hzero => hgo.2 (UInt32.toNat_inj.mp hzero)
      split
      · trivial
      · have hasked : (w.asked tip.height).store.tip = some tip := hstored
        refine Fallible.wp_mono (disconnectTip_events hasked) ?_ fun _ _ h => h
        intro _ w₁ _
        refine Fallible.wp_mono stepBack_events ?_ fun _ _ h => h
        rintro prev' w₂ ⟨hheight, hprev, -⟩ _ hnext
        obtain rfl := Option.some.inj hnext
        refine ⟨hprev, ?_⟩
        rw [hheight, toNat_sub_one hgo.2]
        omega
  exact Fallible.of_wp_ok hsteps h prev rfl

/-- In every round the tip is the stored one. -/
theorem InWalk.stored (h : InWalk env s disconnects tip w) : w.store.tip = some tip := by
  induction h with
  | first _ hstored => exact hstored
  | next _ hround ih => exact (walkRound_prev ih hround).1

/-- These are the rounds of `catch_up`: from each of them on, the run is the loop there. -/
theorem InWalk.rest (h : InWalk env s disconnects tip w) :
    ∃ nodeTip, (env.node 0).blockCount = .ok nodeTip ∧
      catchUp env (.start s) =
        (Tracker.walkBack env (tip.height.toNat + 1) disconnects tip >>=
          applyForward env nodeTip) w := by
  induction h with
  | @first tip nodeTip hcount hstored =>
      refine ⟨nodeTip, hcount, ?_⟩
      have hcalled : getBlockCount env (.start s) =
          (.ok (.ok nodeTip), { World.start s with calls := 1 }) := by
        rw [← hcount]
        rfl
      have htip : Fallible.read (fun w : World => w.store.tip)
          { World.start s with calls := 1 } =
            ((.ok (some tip), { World.start s with calls := 1 }) :
              Except TrackerStop (Option TipState) × World) := by
        rw [← hstored]
        rfl
      have hcount' : orRpc (.ok nodeTip) { World.start s with calls := 1 } =
          (.ok nodeTip, { World.start s with calls := 1 }) := rfl
      rw [catchUp, Fallible.bind_of_ok _ hcalled, Fallible.bind_of_ok _ hcount',
        Fallible.bind_of_ok _ htip]
      rfl
  | @next disconnects tip prev w w' hreached hround ih =>
      obtain ⟨nodeTip, hcount, hrest⟩ := ih
      refine ⟨nodeTip, hcount, ?_⟩
      have hloop : Tracker.walkBack env (tip.height.toNat + 1) disconnects tip w =
          Tracker.walkBack env (prev.height.toNat + 1) (disconnects + 1) prev w' := by
        rw [Tracker.walkBack, Fallible.bind_of_ok _ hround,
          (walkRound_prev hreached.stored hround).2]
      rw [hrest]
      show Fallible.andThen _ _ w = Fallible.andThen _ _ w'
      rw [Fallible.andThen, Fallible.andThen, hloop]

/-- The loop only adds to the log. -/
theorem walkBack_logs (env : TrackerEnv) (rounds disconnects : Nat) (tip : TipState) (w : World) :
    w.disconnectRequests ⊆
      (Tracker.walkBack env rounds disconnects tip w).2.disconnectRequests := by
  induction rounds generalizing disconnects tip w with
  | zero => exact List.Subset.refl _
  | succ rounds ih =>
      have hround := walkRound_logs env disconnects tip w
      show _ ⊆ (Fallible.andThen (walkRound env disconnects tip) _ w).2.disconnectRequests
      unfold Fallible.andThen
      rcases hstep : walkRound env disconnects tip w with ⟨e | next, w'⟩
      · rw [hstep] at hround
        exact hround ▸ List.subset_append_left _ _
      · rw [hstep] at hround
        have hfirst : w.disconnectRequests ⊆ w'.disconnectRequests :=
          hround ▸ List.subset_append_left _ _
        cases next with
        | none => exact hfirst
        | some prev => exact List.Subset.trans hfirst (ih _ prev w')

/-- What the loop adds are calls of its rounds. -/
theorem walkBack_mem (hin : InWalk env s disconnects tip w) (rounds : Nat)
    {req : DisconnectRequest}
    (hreq : req ∈ (Tracker.walkBack env rounds disconnects tip w).2.disconnectRequests) :
    req ∈ w.disconnectRequests ∨ ∃ disconnects' tip' w', InWalk env s disconnects' tip' w' ∧
      CallsDisconnect env disconnects' tip' w' ∧ req = ⟨w'.store.tip, tip'.height⟩ := by
  induction rounds generalizing disconnects tip w with
  | zero => exact .inl hreq
  | succ rounds ih =>
      have hround := walkRound_logs env disconnects tip w
      -- A call of this round, or one the log had before.
      have hhere : ∀ req' ∈ (walkRound env disconnects tip w).2.disconnectRequests,
          req' ∈ w.disconnectRequests ∨ ∃ disconnects' tip' w',
            InWalk env s disconnects' tip' w' ∧ CallsDisconnect env disconnects' tip' w' ∧
              req' = ⟨w'.store.tip, tip'.height⟩ := by
        intro req' hreq'
        rw [hround, List.mem_append] at hreq'
        rcases hreq' with hold | hnew
        · exact .inl hold
        · split at hnew
          · rename_i hcalls
            exact .inr ⟨disconnects, tip, w, hin, hcalls, List.mem_singleton.mp hnew⟩
          · contradiction
      change req ∈ (Fallible.andThen (walkRound env disconnects tip) _ w).2.disconnectRequests
        at hreq
      unfold Fallible.andThen at hreq
      rcases hstep : walkRound env disconnects tip w with ⟨e | next, w'⟩
      · rw [hstep] at hreq hhere
        exact hhere req hreq
      · rw [hstep] at hreq hhere
        cases next with
        | none => exact hhere req hreq
        | some prev => exact (ih (.next hin hstep) hreq).elim (hhere req) .inr

/-- The calls of `disconnect_block` in a run are those of its rounds, each at the height of
the stored tip. -/
theorem mem_disconnectRequests {req : DisconnectRequest} :
    req ∈ (catchUp env (.start s)).2.disconnectRequests ↔
      ∃ disconnects tip w, InWalk env s disconnects tip w ∧
        CallsDisconnect env disconnects tip w ∧ req = ⟨some tip, tip.height⟩ := by
  constructor
  · intro hreq
    cases hcount : (env.node 0).blockCount with
    | error e =>
        have hempty : (catchUp env (.start s)).2.disconnectRequests = [] :=
          Fallible.after_of_wp (P := fun w => w.disconnectRequests = [])
            ((wp_catchUp_of_error (w := World.start s) hcount).mpr rfl)
        rw [hempty] at hreq
        contradiction
    | ok nodeTip =>
        cases hstored : s.tip with
        | none =>
            have hempty : (catchUp env (.start s)).2.disconnectRequests = [] :=
              Fallible.after_of_wp (P := fun w => w.disconnectRequests = [])
                ((wp_catchUp_of_noTip (w := World.start s) hcount hstored).mpr
                  ((startAtNodeTip_keeps nodeTip).wp _))
            rw [hempty] at hreq
            contradiction
        | some tip =>
            have hin := InWalk.first hcount hstored
            obtain ⟨nodeTip', -, hrest⟩ := hin.rest
            rw [hrest, Fallible.bind_keeps (applyForward_keeps nodeTip')] at hreq
            rcases walkBack_mem hin _ hreq with hold | ⟨disconnects, tip', w, hw, hcalls, rfl⟩
            · contradiction
            · exact ⟨disconnects, tip', w, hw, hcalls, by rw [hw.stored]⟩
  · rintro ⟨disconnects, tip, w, hin, hcalls, rfl⟩
    obtain ⟨nodeTip, -, hrest⟩ := hin.rest
    have hround := walkRound_logs env disconnects tip w
    rw [if_pos hcalls, hin.stored] at hround
    have hmem : ⟨some tip, tip.height⟩ ∈
        (walkRound env disconnects tip w).2.disconnectRequests := by
      rw [hround]
      exact List.mem_append_right _ (List.mem_singleton_self _)
    rw [hrest, Fallible.bind_keeps (applyForward_keeps nodeTip)]
    show _ ∈ (Fallible.andThen (walkRound env disconnects tip) _ w).2.disconnectRequests
    unfold Fallible.andThen
    rcases hstep : walkRound env disconnects tip w with ⟨e | next, w'⟩
    · rw [hstep] at hmem
      exact hmem
    · rw [hstep] at hmem
      cases next with
      | none => exact hmem
      | some prev => exact walkBack_logs env _ _ prev w' hmem

end Rounds

/-! ## Against a node that stays put -/

/-- The tip's block is on the chain. -/
def OnChain (D : Digests) (B : List RawBlock) (tip : TipState) : Prop :=
  ∃ raw, B[tip.height.toNat]? = some raw ∧ blockHash D raw = tip.hash

/-- Every call of `disconnect_block` in a run of `catch_up` is for the block of the tip that
is stored then, and that block is off the chain. -/
def DisconnectsOnlyForeign (D : Digests) (B : List RawBlock) (env : TrackerEnv)
    (s : UtxoStore) : Prop :=
  ∀ req ∈ (catchUp env (.start s)).2.disconnectRequests,
    ∃ tip, req.tip = some tip ∧ req.height = tip.height ∧ ¬OnChain D B tip

/-- Whenever the hash at the stored tip's height is asked for while the tip is on the
chain, the node answers, and not with the hash that stands for an error; at height zero and
at the depth limit it does not matter. -/
def ComparisonsAnswered (D : Digests) (B : List RawBlock) (env : TrackerEnv) (s : UtxoStore) :
    Prop :=
  ∀ disconnects tip w, InWalk env s disconnects tip w → OnChain D B tip → tip.height ≠ 0 →
    disconnects < env.maxReorgDepth →
      ∃ hash, (env.node w.calls).blockHash tip.height = .ok hash ∧ hash ≠ Hash32.zero

/-- Against a node whose best chain stays `B` and whose calls may fail, a run disconnects
only blocks that are not on `B` if and only if none of the comparisons made while the
stored tip is on `B` fails. -/
theorem disconnectsOnlyForeign_iff (D : Digests) (B : List RawBlock) (env : TrackerEnv)
    (s : UtxoStore) (hnode : ServesOrFails D B env.node) :
    DisconnectsOnlyForeign D B env s ↔ ComparisonsAnswered D B env s := by
  constructor
  · intro h disconnects tip w hin hon hheight hdepth
    -- The round does not call `disconnect_block`, so the test of the loop passed.
    by_cases hhas : HasTip env w tip
    · exact ⟨tip.hash, hhas⟩
    · obtain ⟨tip', htip', -, hoff⟩ := h ⟨some tip, tip.height⟩ <|
        mem_disconnectRequests.mpr ⟨disconnects, tip, w, hin, ⟨hhas, hheight, hdepth⟩, rfl⟩
      obtain rfl : tip = tip' := Option.some.inj htip'
      exact absurd hon hoff
  · intro h req hreq
    obtain ⟨disconnects, tip, w, hin, ⟨hhas, hheight, hdepth⟩, rfl⟩ :=
      mem_disconnectRequests.mp hreq
    refine ⟨tip, rfl, rfl, fun hon => hhas ?_⟩
    obtain ⟨hash, hanswer, hne⟩ := h disconnects tip w hin hon hheight hdepth
    obtain ⟨raw, hraw, hhash⟩ := hon
    -- The call was answered, so from the chain.
    rcases hnode w.calls with hserves | hfails
    · have hserved := hserves.blockHash tip.height.toNat raw hraw
      rw [UInt32.ofNat_toNat, hhash] at hserved
      obtain rfl := Except.ok.inj (hanswer.symm.trans hserved)
      exact ⟨hanswer, hne⟩
    · obtain ⟨e, he⟩ := hfails.blockHash tip.height
      rw [hanswer] at he
      contradiction

theorem disconnectsOnlyForeign_iff_sample :
    DisconnectsOnlyForeign treeDigests newChain (quietEnv treeDigests newChain)
        (chainStore treeDigests (oldChain.take 2)) ↔
      ComparisonsAnswered treeDigests newChain (quietEnv treeDigests newChain)
        (chainStore treeDigests (oldChain.take 2)) :=
  disconnectsOnlyForeign_iff treeDigests newChain _ _
    (undisturbed_quietEnv (by decide) newChain_hashes_nodup).servesOrFails

/-- The first comparison fails: the tip is disconnected although the node has it. -/
theorem failed_comparison_disconnects :
    ServesOrFails treeDigests oldChain
        ((Interruption.rpcFails 1 .http).env (quietEnv treeDigests oldChain)).node ∧
      ¬DisconnectsOnlyForeign treeDigests oldChain
        ((Interruption.rpcFails 1 .http).env (quietEnv treeDigests oldChain))
        (chainStore treeDigests oldChain) ∧
      ((catchUp ((Interruption.rpcFails 1 .http).env (quietEnv treeDigests oldChain))
        (.start (chainStore treeDigests oldChain))).2.events.map Prod.fst).take 2 =
          [.reorgStart 0, .disconnected 2 (blockHash treeDigests sampleOld2.raw)] := by
  refine ⟨Interruption.servesOrFails (undisturbed_quietEnv (by decide) oldChain_hashes_nodup) _,
    ?_, by decide +kernel⟩
  intro h
  have hcalled : ⟨some (tipOf treeDigests 2 sampleOld2.raw), 2⟩ ∈
      (catchUp ((Interruption.rpcFails 1 .http).env (quietEnv treeDigests oldChain))
        (.start (chainStore treeDigests oldChain))).2.disconnectRequests := by decide +kernel
  obtain ⟨tip, htip, -, hoff⟩ := h _ hcalled
  obtain rfl := Option.some.inj htip
  refine hoff ⟨sampleOld2.raw, ?_, rfl⟩
  decide +kernel

end Bidx
