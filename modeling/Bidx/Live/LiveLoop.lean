import Bidx.Live.Interruption

/-!
# The live loop

`LiveTracker::run` catches up once and then waits: for a `hashblock` notification, or for
two seconds where no subscriber is configured.  Every time it catches up again, whatever
the notification says.  With a subscriber an error of `catch_up` is logged and the loop
goes on, unless the reorganisation was too deep; without one every error ends it.

The loop is endless.  A run here is over the wake-ups so far, each with the node's answers
while it is handled, and returns where the loop waits for the next one.

What follows is the lifetime of a live store beside a node whose chain only grows, up to
one replaced block at its tip between two wake-ups, with no two failing calls in a row and
none while a block is being replaced.  Then the store is never off the node's chain
(`Follows`), and a wake-up without a failing call brings it to the node's tip.
-/

namespace Bidx

open KeyValue Tracker

/-- `ZmqError`. -/
inductive ZmqError where
  | zmq
  | malformed (message : String)
deriving DecidableEq

/-- `parse_hashblock_multipart`. -/
def parseHashblockMultipart (msg : List (List UInt8)) : Except ZmqError Hash32 :=
  if msg.length < 2 then
    .error (.malformed ("expected >=2 frames, got " ++ toString msg.length))
  else
    -- Another topic than `hashblock` is warned about and accepted.
    let payload := msg.getD 1 []
    if payload.length ≠ 32 then
      .error (.malformed
        ("hashblock payload " ++ toString payload.length ++ " bytes, expected 32"))
    else
      .ok (LittleEndian.arrayAt 32 payload 0)

/-- A wake-up of the loop. -/
structure Wakeup where
  /-- What `recv_multipart` returns. -/
  message : Except ZmqError (List (List UInt8))
  /-- The node's answers meanwhile, by the number of calls made before. -/
  node : Nat → NodeView

/-- `next_block_hash`. -/
def Wakeup.nextBlockHash (wakeup : Wakeup) : Except ZmqError Hash32 :=
  wakeup.message >>= parseHashblockMultipart

namespace Tracker

/-- An error that is not only logged: the loop returns, or the process is gone. -/
def endsLoop : TrackerStop → Bool
  | .reorgTooDeep _ => true
  | .utxo .panic => true
  | .died => true
  | _ => false

/-- `catch_up` for a notification. -/
def onBlock (env : TrackerEnv) : TrackerM Unit := fun w =>
  match catchUp env w with
  | (.ok (), w') => (.ok (), w')
  | (.error stop, w') => if endsLoop stop then (.error stop, w') else (.ok (), w')

/-- One turn of the loop. -/
def onWakeup (env : TrackerEnv) (subscribed : Bool) (wakeup : Wakeup) : TrackerM Unit :=
  if subscribed then
    match wakeup.nextBlockHash with
    | .ok _ => onBlock { env with node := wakeup.node }
    | .error _ => pure ()
  else
    catchUp { env with node := wakeup.node }

/-- `live_loop` over some wake-ups. -/
def liveLoop (env : TrackerEnv) (subscribed : Bool) : List Wakeup → TrackerM Unit
  | [] => pure ()
  | wakeup :: wakeups => do
      onWakeup env subscribed wakeup
      liveLoop env subscribed wakeups

/-- `run`. -/
def run (env : TrackerEnv) (subscribed : Bool) (wakeups : List Wakeup) : TrackerM Unit := do
  catchUp env
  liveLoop env subscribed wakeups

end Tracker

/-! ## A store beside a chain -/

/-- A live store with the first blocks of `B`, up to `top`: no undo record is wrong, and
that of the last block of `B` is there. -/
structure Follows (D : Digests) (B : List RawBlock) (top : Nat) (s : UtxoStore) : Prop where
  live : s.Live
  utxo : s.db.utxo = replay D (B.take (top + 1))
  tip : ∃ tip, s.tip = some tip ∧ TipOn D B top tip
  undo : ∀ height ≤ top, s.db.undo (UInt32.ofNat height) = none ∨
    s.db.undo (UInt32.ofNat height) = undoRecord D B height
  last : 0 < top → top + 1 = B.length →
    s.db.undo (UInt32.ofNat top) = undoRecord D B top

/-- Whether a wake-up makes the loop ask the node. -/
def Wakeup.Asks (subscribed : Bool) (wakeup : Wakeup) : Prop :=
  subscribed = true → ∃ hash, wakeup.nextBlockHash = .ok hash

/-- From one catch-up to the next the node's chain `prev` has become `B`, and what it
answers meanwhile. -/
structure Round (D : Digests) (prev B : List RawBlock) (node : Nat → NodeView) : Prop where
  valid : ValidChain D B
  shared : SharedHashes D prev B
  grows : prev.length ≤ B.length
  keeps : prev.take (prev.length - 1) = B.take (prev.length - 1)
  genesis : prev[0]? = B[0]?
  answers : ServesOrFails D B node
  isolated : ∀ i, Serves D B (node i) ∨ Serves D B (node (i + 1))
  calm : ¬prev <+: B → ∀ i, Serves D B (node i)

/-- The lifetime of a loop beside a node whose chain has become `last` in the end. -/
inductive Lifetime (D : Digests) (subscribed : Bool) :
    List RawBlock → List Wakeup → List RawBlock → Prop
  | done (B : List RawBlock) : Lifetime D subscribed B [] B
  /-- A message that is not one of a block: nothing is asked. -/
  | skips {prev last : List RawBlock} {wakeup : Wakeup} {wakeups : List Wakeup}
      (hasks : ¬wakeup.Asks subscribed) (hrest : Lifetime D subscribed prev wakeups last) :
      Lifetime D subscribed prev (wakeup :: wakeups) last
  | asks {prev B last : List RawBlock} {wakeup : Wakeup} {wakeups : List Wakeup}
      (hasks : wakeup.Asks subscribed) (hround : Round D prev B wakeup.node)
      (hrest : Lifetime D subscribed B wakeups last) :
      Lifetime D subscribed prev (wakeup :: wakeups) last

section Follows

variable {D : Digests} {prev B : List RawBlock} {top : Nat} {s : UtxoStore}

theorem Follows.lt (h : Follows D B top s) : top < B.length := by
  obtain ⟨-, -, raw, hraw, -⟩ := h.tip
  exact (List.getElem?_eq_some_iff.mp hraw).1

/-- Further along. -/
theorem Follows.followed (h : Follows D B top s) (hB : ValidChain D B) {count : Nat}
    (hlen : top + 1 + count ≤ B.length) :
    Follows D B (top + count) (s.followed D B (top + 1) count) := by
  obtain ⟨tip, htip, hon⟩ := h.tip
  have hundo : ∀ height ≤ top + count, (s.followed D B (top + 1) count).db.undo
      (UInt32.ofNat height) = if top + 1 ≤ height then undoRecord D B height
        else s.db.undo (UInt32.ofNat height) :=
    fun height hle => followed_undo_ofNat hB h.utxo hlen (by omega)
  constructor
  case live => exact h.live.followed _ _
  case utxo =>
    rw [followed_utxo h.utxo hlen, show top + count + 1 = top + 1 + count by omega]
  case tip => exact tip_followed hB htip hon hlen
  case undo =>
    intro height hle
    rw [hundo height hle]
    split_ifs with hnew
    · exact .inr rfl
    · exact h.undo height (by omega)
  case last =>
    intro hpos hlast
    rw [hundo _ le_rfl]
    split_ifs with hnew
    · rfl
    · obtain rfl : count = 0 := by omega
      exact h.last hpos hlast

/-- One block less. -/
theorem Follows.steppedBack (h : Follows D B (top + 1) s) (hB : ValidChain D B) {raw : RawBlock}
    (hraw : B[top]? = some raw) :
    Follows D B top ((s.rolledBack (UInt32.ofNat (top + 1)) (replay D (B.take (top + 1)))).setTip
      (tipOf D top raw)) := by
  have hlt := h.lt
  have hbound := hB.length_lt
  constructor
  case live => exact (h.live.rolledBack _ _).setTip _
  case utxo => rfl
  case tip => exact ⟨_, UtxoStore.tip_setTip _ _, raw, hraw, rfl⟩
  case undo =>
    intro height hle
    have hne : UInt32.ofNat height ≠ UInt32.ofNat (top + 1) := by
      intro heq
      have hnat := congrArg UInt32.toNat heq
      rw [toNat_ofNat_height (by omega), toNat_ofNat_height (by omega)] at hnat
      omega
    rw [UtxoStore.setTip_undo, UtxoStore.rolledBack_undo, Function.update_of_ne hne]
    exact h.undo height (by omega)
  case last =>
    intro _ hlast
    omega

/-- Chains that agree up to the store's tip. -/
theorem Follows.of_take_eq (h : Follows D prev top s)
    (htake : prev.take (top + 1) = B.take (top + 1))
    (hlast : top + 1 = B.length → top + 1 = prev.length) : Follows D B top s := by
  have hget : prev[top]? = B[top]? := getElem?_eq_of_take_eq htake (Nat.lt_succ_self top)
  have hrecord : ∀ height ≤ top, undoRecord D prev height = undoRecord D B height :=
    fun height hle => undoRecord_of_take_eq (take_eq_of_le htake (by omega))
  constructor
  case live => exact h.live
  case utxo => rw [h.utxo, htake]
  case tip =>
    obtain ⟨tip, htip, raw, hraw, heq⟩ := h.tip
    exact ⟨tip, htip, raw, by rw [← hget, hraw], heq⟩
  case undo =>
    intro height hle
    rw [← hrecord height hle]
    exact h.undo height hle
  case last =>
    intro hpos hend
    rw [← hrecord top le_rfl]
    exact h.last hpos (hlast hend)

end Follows

/-! ## One wake-up -/

section CatchUp

variable {D : Digests} {prev B : List RawBlock} {top : Nat} {s : UtxoStore} {env : TrackerEnv}
  {w : World} {tip : TipState}

/-- What the store has come to when a run stops early: it is still beside the chain, and some
call has failed. -/
def StoppedBeside (D : Digests) (B : List RawBlock) (env : TrackerEnv) (_ : TrackerStop)
    (w : World) : Prop :=
  (∃ top, Follows D B top w.store) ∧ ∃ i, ¬Serves D B (env.node i)

/-- The walk back from a tip of `B`: it goes back a block for every comparison that fails, and
ends at the first one that is answered. -/
theorem Follows.walkBack (h : Follows D B top w.store) (hB : ValidChain D B)
    (hisolated : ∀ i, Serves D B (env.node i) ∨ Serves D B (env.node (i + 1)))
    (hwrites : ∀ i, env.writeFault i = none) (htip : TipOn D B top tip)
    (rounds disconnects : Nat) :
    Fallible.wp (Tracker.walkBack env rounds disconnects tip)
      (fun tip' w' => ∃ top', TipOn D B top' tip' ∧ Follows D B top' w'.store)
      (StoppedBeside D B env) w := by
  have hbound := hB.length_lt
  induction rounds generalizing top w tip disconnects with
  | zero => exact ⟨top, htip, h⟩
  | succ rounds ih =>
      have hlt := h.lt
      rw [Tracker.walkBack, Fallible.wp_bind]
      by_cases hhas : HasTip env w tip
      · rw [wp_walkRound, if_pos (.inl hhas)]
        exact ⟨top, htip, h⟩
      · have hunserved : ¬Serves D B (env.node w.calls) :=
          fun hserves => hhas (.of_serves hB hserves htip)
        have hnext := (hisolated w.calls).resolve_left hunserved
        obtain ⟨raw, hraw, rfl⟩ := htip
        cases top with
        | zero =>
            rw [wp_walkRound, if_pos (.inr rfl)]
            exact ⟨0, ⟨raw, hraw, rfl⟩, h⟩
        | succ top =>
            have hheight := tipOf_height_ne_zero (D := D) (Nat.succ_pos top) (by omega) raw
            by_cases hdeep : env.maxReorgDepth ≤ disconnects
            · rw [wp_walkRound, if_neg (not_or.mpr ⟨hhas, hheight⟩), if_pos hdeep]
              exact ⟨⟨_, h⟩, _, hunserved⟩
            · rcases h.undo _ le_rfl with hnone | hrecord
              · rw [wp_walkRound, if_neg (not_or.mpr ⟨hhas, hheight⟩), if_neg hdeep]
                refine disconnectTip_noUndo (w := w.asked _) hnone fun _ w' hstore => ?_
                exact ⟨⟨_, hstore ▸ h⟩, _, hunserved⟩
              · have hraw' : B[top]? = some _ := List.getElem?_eq_getElem (by omega)
                refine walkRound_disconnects hB (by omega) hraw h.utxo hrecord hhas (by omega)
                  (fun _ _ _ hfault => absurd (hwrites _) hfault) ?_
                intro w₁ hstore₁ _ hcalls₁
                have hprev : (tipOf D (top + 1) raw).height - 1 = UInt32.ofNat top :=
                  ofNat_sub_one (by omega) (by omega)
                have hanswer := (hcalls₁ ▸ hnext : Serves D B (env.node w₁.calls)).blockHash _ _
                  hraw'
                rw [← hprev] at hanswer
                refine Fallible.wp_mono (stepBack_outcome hanswer) ?_
                  fun _ _ hcut => absurd (hwrites _) hcut.2
                rintro tip₂ w₂ ⟨rfl, hstore₂, -, -, -⟩
                refine ih ?_ ⟨_, hraw', by rw [hprev]; rfl⟩ _
                rw [hstore₂, hstore₁, hprev]
                exact h.steppedBack hB hraw'

/-- The rest of a run from a tip of `B`. -/
theorem Follows.applyForward (h : Follows D B top w.store) (hB : ValidChain D B)
    (hdigests : env.digests = D) (hanswers : ServesOrFails D B env.node)
    (hwrites : ∀ i, env.writeFault i = none) (htip : TipOn D B top tip) :
    Fallible.wp (Tracker.applyForward env (UInt32.ofNat (B.length - 1)) tip)
      (fun _ w' => Follows D B (B.length - 1) w'.store) (StoppedBeside D B env) w := by
  have hlt := h.lt
  refine Fallible.wp_mono (applyForward_outcome hdigests hB hanswers h.live htip) ?_ ?_
  · intro _ w' hstore
    have hcount : top + 1 + (B.length - (top + 1)) ≤ B.length := by omega
    have hend := h.followed hB hcount
    rw [hstore]
    rwa [show top + (B.length - (top + 1)) = B.length - 1 by omega] at hend
  · rintro _ w' ⟨done, hdone, ⟨hstore, hunserved | hfault⟩ | ⟨-, -, -, -, -, hfault⟩⟩
    · refine ⟨⟨top + done, ?_⟩, hunserved⟩
      rw [hstore]
      exact h.followed hB (by omega)
    · exact absurd (hwrites _) hfault
    · exact absurd (hwrites _) hfault

/-- A run from a store on the node's chain. -/
theorem Follows.reconcile (h : Follows D B top w.store) (hB : ValidChain D B)
    (hdigests : env.digests = D) (hanswers : ServesOrFails D B env.node)
    (hisolated : ∀ i, Serves D B (env.node i) ∨ Serves D B (env.node (i + 1)))
    (hwrites : ∀ i, env.writeFault i = none) (htip : TipOn D B top tip) :
    Fallible.wp (Tracker.reconcile env (UInt32.ofNat (B.length - 1)) tip)
      (fun _ w' => Follows D B (B.length - 1) w'.store) (StoppedBeside D B env) w := by
  unfold Tracker.reconcile
  refine Fallible.wp_seq (h.walkBack hB hisolated hwrites htip _ 0) ?_
  rintro tip' w' ⟨top', htip', hfollows⟩
  exact hfollows.applyForward hB hdigests hanswers hwrites htip'

/-- A run from a store whose tip the node has replaced: the block is disconnected, and the
store is on the node's chain. -/
theorem Follows.reconcile_replaced (h : Follows D prev (top + 1) w.store)
    (hprev : ValidChain D prev) (hround : Round D prev B env.node) (hdigests : env.digests = D)
    (hserves : ∀ i, Serves D B (env.node i)) (hwrites : ∀ i, env.writeFault i = none)
    (hdepth : 0 < env.maxReorgDepth) (hlast : top + 1 + 1 = prev.length) {raw : RawBlock}
    (hraw : prev[top + 1]? = some raw)
    (hmiss : ∀ b, B[top + 1]? = some b → blockHash D b ≠ blockHash D raw) :
    Fallible.wp (Tracker.reconcile env (UInt32.ofNat (B.length - 1)) (tipOf D (top + 1) raw))
      (fun _ w' => Follows D B (B.length - 1) w'.store) (StoppedBeside D B env) w := by
  have hbound := hprev.length_lt
  have hgrows := hround.grows
  have hbelow : prev.take (top + 1) = B.take (top + 1) :=
    take_eq_of_le hround.keeps (by omega)
  have hraw' : prev[top]? = some _ := List.getElem?_eq_getElem (by omega)
  have hrawB : B[top]? = some _ := (getElem?_eq_of_take_eq hbelow (by omega)).symm.trans hraw'
  have hmiss' : ¬HasTip env w (tipOf D (top + 1) raw) :=
    not_hasTip (hserves _) (by omega) hmiss
  unfold Tracker.reconcile
  rw [Fallible.wp_bind, Tracker.walkBack, Fallible.wp_bind]
  refine walkRound_disconnects hprev (by omega) hraw h.utxo (h.last (by omega) hlast) hmiss'
    hdepth (fun _ _ _ hfault => absurd (hwrites _) hfault) ?_
  intro w₁ hstore₁ _ _
  have hheight : (tipOf D (top + 1) raw).height - 1 = UInt32.ofNat top :=
    ofNat_sub_one (by omega) (by omega)
  have hanswer := (hserves w₁.calls).blockHash _ _ hrawB
  rw [← hheight] at hanswer
  refine Fallible.wp_mono (stepBack_outcome hanswer) ?_
    fun _ _ hcut => absurd (hwrites _) hcut.2
  rintro tip₂ w₂ ⟨rfl, hstore₂, -, -, -⟩
  have hfollows : Follows D B top w₂.store := by
    refine Follows.of_take_eq ?_ hbelow fun _ => by omega
    rw [hstore₂, hstore₁, hheight]
    exact h.steppedBack hprev hraw'
  refine Fallible.wp_mono (hfollows.walkBack hround.valid hround.isolated hwrites
    ⟨_, hrawB, by rw [hheight]; rfl⟩ _ 1) ?_ fun _ _ hstop => hstop
  rintro tip' w' ⟨top', htip', hfollows'⟩
  exact hfollows'.applyForward hround.valid hdigests hround.answers hwrites htip'

/-- Either the store is on the node's new chain already, or the node has replaced its tip. -/
theorem Follows.onChain_or_replaced (h : Follows D prev top s)
    (hround : Round D prev B env.node) :
    Follows D B top s ∨ ∃ below raw, top = below + 1 ∧ top + 1 = prev.length ∧
      prev[top]? = some raw ∧ (∀ b, B[top]? = some b → blockHash D b ≠ blockHash D raw) ∧
      ¬prev <+: B := by
  have hlt := h.lt
  have hgrows := hround.grows
  by_cases hlast : top + 1 = prev.length
  · by_cases hprefix : prev <+: B
    · -- The whole of the old chain is still there.
      obtain ⟨rest, rfl⟩ := hprefix
      refine .inl (h.of_take_eq ?_ fun _ => hlast)
      rw [List.take_append_of_le_length hlast.le]
    · obtain ⟨raw, hraw⟩ : ∃ raw, prev[top]? = some raw := ⟨_, List.getElem?_eq_getElem hlt⟩
      have hkeeps : prev.take top = B.take top := by
        have hkeeps := hround.keeps
        rwa [show prev.length - 1 = top by omega] at hkeeps
      have hmiss : ∀ b, B[top]? = some b → blockHash D b ≠ blockHash D raw := by
        intro b hb hhash
        obtain rfl := hround.shared raw (List.mem_of_getElem? hraw) b (List.mem_of_getElem? hb)
          hhash.symm
        refine hprefix (List.prefix_iff_eq_take.mpr ?_)
        rw [← hlast, List.take_add_one, hb, ← hkeeps, ← hraw, ← List.take_add_one, hlast,
          List.take_length]
      cases top with
      | zero => exact absurd rfl (hmiss _ (hround.genesis.symm.trans hraw))
      | succ below => exact .inr ⟨below, raw, rfl, hlast, hraw, hmiss, hprefix⟩
  · refine .inl (h.of_take_eq (take_eq_of_le hround.keeps (by omega)) fun hend => by omega)

/-- A wake-up. -/
theorem Follows.catchUp (h : Follows D prev top w.store) (hprev : ValidChain D prev)
    (hround : Round D prev B env.node) (hdigests : env.digests = D)
    (hwrites : ∀ i, env.writeFault i = none) (hdepth : 0 < env.maxReorgDepth) :
    Fallible.wp (Tracker.catchUp env) (fun _ w' => Follows D B (B.length - 1) w'.store)
      (StoppedBeside D B env) w := by
  rcases hround.answers w.calls with hserves | hfails
  · obtain ⟨tip, htip, hon⟩ := h.tip
    rw [wp_catchUp_of_tip hserves.blockCount htip]
    rcases h.onChain_or_replaced hround with hfollows | ⟨below, raw, rfl, hlast, hraw, hmiss, hnew⟩
    · obtain ⟨tip', htip', hon'⟩ := hfollows.tip
      obtain rfl := Option.some.inj (htip.symm.trans htip')
      exact Follows.reconcile (w := { w with calls := w.calls + 1 }) hfollows hround.valid hdigests
        hround.answers hround.isolated hwrites hon'
    · obtain ⟨raw', hraw', rfl⟩ := hon
      obtain rfl := Option.some.inj (hraw'.symm.trans hraw)
      exact Follows.reconcile_replaced (w := { w with calls := w.calls + 1 }) h hprev hround
        hdigests (hround.calm hnew) hwrites hdepth hlast hraw hmiss
  · obtain ⟨e, he⟩ := hfails.blockCount
    rw [wp_catchUp_of_error he]
    have hunserved : ¬Serves D B (env.node w.calls) := by
      intro hserves
      rw [hserves.blockCount] at he
      contradiction
    refine ⟨⟨top, ?_⟩, _, hunserved⟩
    rcases h.onChain_or_replaced hround with hfollows | ⟨-, -, -, -, -, -, hnew⟩
    · exact hfollows
    · exact absurd (hround.calm hnew _) hunserved

end CatchUp

/-! ## The whole run -/

section Run

variable {D : Digests} {prev B last : List RawBlock} {top : Nat} {s : UtxoStore}
  {env : TrackerEnv} {w : World} {subscribed : Bool} {wakeup : Wakeup} {wakeups : List Wakeup}

/-- An error is logged, or ends the loop. -/
theorem wp_onBlock {Q : Unit → World → Prop} {E E' : TrackerStop → World → Prop}
    (h : Fallible.wp (catchUp env) Q E w)
    (hlogged : ∀ stop w', E stop w' → endsLoop stop = false → Q () w')
    (hended : ∀ stop w', E stop w' → endsLoop stop = true → E' stop w') :
    Fallible.wp (onBlock env) Q E' w := by
  unfold Fallible.wp onBlock at *
  rcases hrun : catchUp env w with ⟨stop | _, w'⟩
  · rw [hrun] at h
    cases hends : endsLoop stop with
    | true => simpa only [hends, if_true] using hended stop w' h hends
    | false => simpa only [hends, Bool.false_eq_true, if_false] using hlogged stop w' h hends
  · rw [hrun] at h
    exact h

theorem wp_onWakeup_of_asks {Q : Unit → World → Prop} {E E' : TrackerStop → World → Prop}
    (hasks : wakeup.Asks subscribed)
    (h : Fallible.wp (catchUp { env with node := wakeup.node }) Q E w)
    (hstop : ∀ stop w', E stop w' → Q () w' ∧ E' stop w') :
    Fallible.wp (onWakeup env subscribed wakeup) Q E' w := by
  unfold onWakeup
  split
  · rename_i hsubscribed
    obtain ⟨hash, hmessage⟩ := hasks hsubscribed
    rw [hmessage]
    exact wp_onBlock h (fun stop w' hE _ => (hstop stop w' hE).1)
      fun stop w' hE _ => (hstop stop w' hE).2
  · exact Fallible.wp_mono h (fun _ _ hq => hq) fun stop w' hE => (hstop stop w' hE).2

theorem wp_onWakeup_of_skips {Q : Unit → World → Prop} {E : TrackerStop → World → Prop}
    (hasks : ¬wakeup.Asks subscribed) (h : Q () w) :
    Fallible.wp (onWakeup env subscribed wakeup) Q E w := by
  rw [Wakeup.Asks, not_forall] at hasks
  obtain ⟨rfl, hnone⟩ := hasks
  unfold onWakeup
  rw [if_pos rfl]
  cases hmessage : wakeup.nextBlockHash with
  | ok hash => exact absurd ⟨hash, hmessage⟩ hnone
  | error e => exact h

/-- A store beside some chain the node has had. -/
def Beside (D : Digests) (subscribed : Bool) (prev : List RawBlock) (wakeups : List Wakeup)
    (s : UtxoStore) : Prop :=
  ∃ earlier later B top, wakeups = earlier ++ later ∧ Lifetime D subscribed prev earlier B ∧
    Follows D B top s

theorem Beside.skips (hasks : ¬wakeup.Asks subscribed)
    (h : Beside D subscribed prev wakeups s) : Beside D subscribed prev (wakeup :: wakeups) s := by
  obtain ⟨earlier, later, B, top, rfl, hlife, hfollows⟩ := h
  exact ⟨wakeup :: earlier, later, B, top, rfl, .skips hasks hlife, hfollows⟩

theorem Beside.asks (hasks : wakeup.Asks subscribed) (hround : Round D prev B wakeup.node)
    (h : Beside D subscribed B wakeups s) : Beside D subscribed prev (wakeup :: wakeups) s := by
  obtain ⟨earlier, later, C, top, rfl, hlife, hfollows⟩ := h
  exact ⟨wakeup :: earlier, later, C, top, rfl, .asks hasks hround hlife, hfollows⟩

/-- The loop keeps the store beside the node's chain. -/
theorem Lifetime.liveLoop (hlife : Lifetime D subscribed prev wakeups last)
    (h : Follows D prev top w.store) (hprev : ValidChain D prev) (hdigests : env.digests = D)
    (hwrites : ∀ i, env.writeFault i = none) (hdepth : 0 < env.maxReorgDepth) :
    Fallible.wp (Tracker.liveLoop env subscribed wakeups)
      (fun _ w' => ValidChain D last ∧ ∃ top, Follows D last top w'.store)
      (fun _ w' => Beside D subscribed prev wakeups w'.store) w := by
  induction hlife generalizing top w with
  | done B => exact ⟨hprev, top, h⟩
  | skips hasks _ ih =>
      rw [Tracker.liveLoop, Fallible.wp_bind]
      refine wp_onWakeup_of_skips hasks ?_
      exact Fallible.wp_mono (ih h hprev) (fun _ _ hq => hq) fun _ _ hstop => hstop.skips hasks
  | @asks prev B last wakeup wakeups hasks hround _ ih =>
      have hcatchUp : Fallible.wp (catchUp { env with node := wakeup.node }) _ _ w :=
        h.catchUp hprev hround hdigests hwrites hdepth
      rw [Tracker.liveLoop]
      refine Fallible.wp_seq (Q := fun _ w' => ∃ top, Follows D B top w'.store)
        (wp_onWakeup_of_asks hasks (Fallible.wp_mono hcatchUp (fun _ _ hq => ⟨_, hq⟩)
          fun _ _ hstop => hstop) ?_) ?_
      · rintro _ w' ⟨⟨top', hfollows⟩, -⟩
        exact ⟨⟨top', hfollows⟩, [wakeup], wakeups, B, top', rfl, .asks hasks hround (.done B),
          hfollows⟩
      · rintro _ w' ⟨top', hfollows⟩
        exact Fallible.wp_mono (ih hfollows hround.valid) (fun _ _ hq => hq)
          fun _ _ hstop => hstop.asks hasks hround

/-- The last wake-up apart. -/
theorem Lifetime.concat {earlier : List Wakeup}
    (h : Lifetime D subscribed prev (earlier ++ [wakeup]) last) (hasks : wakeup.Asks subscribed) :
    ∃ B, Lifetime D subscribed prev earlier B ∧ Round D B last wakeup.node := by
  induction earlier generalizing prev with
  | nil =>
      cases h with
      | skips hnot => exact absurd hasks hnot
      | asks _ hround hrest =>
          cases hrest
          exact ⟨prev, .done prev, hround⟩
  | cons first earlier ih =>
      cases h with
      | skips hnot hrest =>
          obtain ⟨B, hlife, hround⟩ := ih hrest
          exact ⟨B, .skips hnot hlife, hround⟩
      | asks hfirst hround₁ hrest =>
          obtain ⟨B, hlife, hround⟩ := ih hrest
          exact ⟨B, .asks hfirst hround₁ hlife, hround⟩

end Run

/-- A node that fails every other call. -/
def flakyNode (D : Digests) (B : List RawBlock) (i : Nat) : NodeView :=
  if i % 2 = 1 then .failing .io else serving D B

/-- A notification of a block. -/
def blockMessage : List (List UInt8) := ["hashblock".toUTF8.toList, List.replicate 32 7, []]

end Bidx
