import Bidx.Live.Agreement
import Bidx.Live.LiveLoop
import Bidx.Live.Sink
import Bidx.Pipeline.Resume

/-!
# The Parquet output of live sessions

`run_live` with an output directory creates the part of the height above the stored tip,
hands every applied block to the sink, and never finishes it: the live loop only ends with
an error or with the process, and then the open part's files stay without a footer.  The next
session creates the part of its own first height, which empties it.

Beside a node whose chain grows, a part therefore ends up with its rows exactly when one
session applied all of its blocks and the first block of the part after it
(`runSessions_part_complete_iff`).
-/

namespace Bidx

open KeyValue Tracker

/-! ## The command -/

/-- The event callback of `run_live`: rows of applied blocks go to the sink. -/
def LiveSink.onEvent (s : LiveSink) : TrackerEvent × Option FullBlock → LiveSink
  | (.applied _ _ spends, some block) => s.writeBlock ⟨block, spends⟩
  | _ => s

/-- `start_part`. -/
def startPart (store : UtxoStore) : Nat :=
  match store.tip with
  | some tip => (tip.height + 1).toNat / liveBlocksPerPart
  | none => 0

/-- The database and the output directory of `live`. -/
structure LiveDisk where
  db : Db
  out : OutDir

/-- One life of the process. -/
structure LiveSession where
  env : TrackerEnv
  subscribed : Bool
  wakeups : List Wakeup

/-- `run_live` up to the end of the process, the disk-space check and the checkpoints
apart. -/
def LiveSession.run (session : LiveSession) (disk : LiveDisk) : LiveDisk :=
  let store := UtxoStore.openLive disk.db
  let w := (Tracker.run session.env session.subscribed session.wakeups (.start store)).2
  let sink := w.events.foldl LiveSink.onEvent (.create disk.out (startPart store))
  -- The sink is dropped, not finished: its open part has nothing to be read.
  ⟨w.store.db, sink.dir⟩

/-- One session after the other. -/
def runSessions (sessions : List LiveSession) (disk : LiveDisk) : LiveDisk :=
  sessions.foldl (fun disk session => session.run disk) disk

/-! ## Rows in ascending order -/

/-- The `write_block` calls for some rows. -/
def writesOf (rows : List (Nat × FullBlock × List SpendRow)) : List LiveWrite :=
  rows.map fun e => ⟨e.2.1, e.2.2⟩

/-- The block rows name the heights they are listed under. -/
def NamesHeights (rows : List (Nat × FullBlock × List SpendRow)) : Prop :=
  ∀ e ∈ rows, e.2.1.blockRow.height.toNat = e.1

/-- The events' calls are those of the rows of its applied blocks. -/
theorem LiveSink.foldl_onEvent (s : LiveSink) (events : List (TrackerEvent × Option FullBlock)) :
    events.foldl onEvent s = ((appliedRows events).map fun e => ⟨e.2.1, e.2.2⟩).foldl
      writeBlock s := by
  induction events generalizing s with
  | nil => rfl
  | cons e events ih =>
      rw [List.foldl_cons, ih]
      match e with
      | (.applied _ _ _, some _) => rfl
      | (.applied _ _ _, none) => rfl
      | (.disconnected _ _, _) => rfl
      | (.reorgStart _, _) => rfl
      | (.caughtUp _, _) => rfl

section Ascending

variable {rows : List (Nat × FullBlock × List SpendRow)} {e : Nat × FullBlock × List SpendRow}

theorem partRows_singleton (part : Nat) :
    partRows liveBlocksPerPart part [e] =
      if part = e.1 / liveBlocksPerPart then .ofBlock e.2.1 e.2.2 else .empty := by
  split_ifs with h
  · rw [partRows, List.filter_cons_of_pos (by simp [h])]
    exact Rows.append_empty _
  · refine partRows_eq_empty fun e' he' => ?_
    obtain rfl := List.mem_singleton.mp he'
    exact Ne.symm h

/-- Rows of ascending heights from the part `start` on: the open part is that of the last
row, and a part holds what was written to it, or what was there before if it was not opened. -/
theorem LiveSink.contents_ascending (dir : OutDir) (start : Nat) (hnames : NamesHeights rows)
    (hascending : (rows.map Prod.fst).Pairwise (· ≤ ·))
    (hstart : ∀ e ∈ rows, start ≤ e.1 / liveBlocksPerPart) :
    let s := (writesOf rows).foldl writeBlock (create dir start)
    (∀ e ∈ rows, e.1 / liveBlocksPerPart ≤ s.part) ∧
      (s.part = start ∨ ∃ e ∈ rows, e.1 / liveBlocksPerPart = s.part) ∧
      ∀ p, s.contents p = if p = start ∨ ∃ e ∈ rows, e.1 / liveBlocksPerPart = p then
        partRows liveBlocksPerPart p rows else dir p := by
  induction rows using List.reverseRecOn with
  | nil =>
      refine ⟨by simp, .inl rfl, fun p => ?_⟩
      show (create dir start).contents p = _
      rw [contents_create]
      simp [partRows]
  | append_singleton rows e ih =>
      have hnames' : NamesHeights rows := fun e' he' => hnames e' (by simp [he'])
      rw [List.map_append, List.pairwise_append] at hascending
      obtain ⟨hrows, -, hlast⟩ := hascending
      obtain ⟨hbelow, hopen, hcontents⟩ :=
        ih hnames' hrows fun e' he' => hstart e' (by simp [he'])
      have hpart : (⟨e.2.1, e.2.2⟩ : LiveWrite).part = e.1 / liveBlocksPerPart := by
        rw [LiveWrite.part, hnames e (by simp)]
      have hsplit : writesOf (rows ++ [e]) = writesOf rows ++ [⟨e.2.1, e.2.2⟩] := by
        rw [writesOf, List.map_append]
        rfl
      have habove : ∀ e' ∈ rows, e'.1 / liveBlocksPerPart ≤ e.1 / liveBlocksPerPart :=
        fun e' he' => Nat.div_le_div_right
          (hlast e'.1 (List.mem_map_of_mem he') e.1 (by simp))
      simp only [hsplit, List.foldl_append, List.foldl_cons, List.foldl_nil]
      generalize (writesOf rows).foldl writeBlock (create dir start) = s at *
      have hle : s.part ≤ e.1 / liveBlocksPerPart := by
        rcases hopen with hfirst | ⟨e', he', hlater⟩
        · exact hfirst ▸ hstart e (by simp)
        · exact hlater ▸ habove e' he'
      rw [part_writeBlock, hpart]
      refine ⟨?_, .inr ⟨e, by simp, rfl⟩, fun p => ?_⟩
      · intro e' he'
        rcases List.mem_append.mp he' with hold | hnew
        · exact habove e' hold
        · obtain rfl := List.mem_singleton.mp hnew
          exact le_rfl
      · rw [contents_writeBlock, hpart, hcontents p, partRows_append, partRows_singleton]
        simp only [List.mem_append, List.mem_singleton, or_and_right, exists_or, exists_eq_left]
        by_cases hp : p = e.1 / liveBlocksPerPart
        · rw [if_pos hp, if_pos hp, if_pos (Or.inr (Or.inr hp.symm))]
          congr 1
          by_cases hsame : p = s.part
          · rw [if_pos hsame, if_pos]
            exact hopen.imp hsame.trans fun h => h.imp fun _ h' => ⟨h'.1, h'.2.trans hsame.symm⟩
          · -- The part is opened anew: no row before is in it.
            rw [if_neg hsame, partRows_eq_empty]
            intro e' he' heq
            have := hbelow e' he'
            omega
        · rw [if_neg hp, if_neg hp, Rows.append_empty]
          simp only [Ne.symm hp, or_false]

end Ascending

/-- The open part has nothing to be read. -/
theorem LiveSink.dir_part (dir : OutDir) (start : Nat) (writes : List LiveWrite) :
    let s := writes.foldl writeBlock (create dir start)
    s.dir s.part = .empty := by
  induction writes using List.reverseRecOn with
  | nil => exact Function.update_self _ _ _
  | append_singleton writes w ih =>
      simp only [List.foldl_append, List.foldl_cons, List.foldl_nil] at ih ⊢
      generalize writes.foldl writeBlock (create dir start) = s at ih ⊢
      show (s.rotateIfNeeded _).dir (s.rotateIfNeeded _).part = _
      unfold rotateIfNeeded
      dsimp only
      split_ifs
      · exact ih
      · exact Function.update_self _ _ _

/-! ## The rows of a session -/

/-- The rows of the blocks from `a` to `b`, as the tracker hands them on. -/
def liveRows (D : Digests) (C : List RawBlock) (a b : Nat) :
    List (Nat × FullBlock × List SpendRow) :=
  filledRange fillFees D C a (replay D (C.take a)) (b - a)

section Rows

variable {D : Digests} {C : List RawBlock} {a b c k : Nat}
  {e : Nat × FullBlock × List SpendRow}

theorem liveRows_height (he : e ∈ liveRows D C a b) : a ≤ e.1 ∧ e.1 < b := by
  obtain ⟨hle, hlt, -⟩ := filledRange_heights he
  exact ⟨hle, by omega⟩

theorem liveRows_blockRow (he : e ∈ liveRows D C a b) :
    e.2.1.blockRow.height = UInt32.ofNat e.1 := by
  obtain ⟨-, -, block, hblock, heq⟩ := filledRange_heights he
  rw [heq]
  show block.blockRow.height = _
  exact chainBlock_height hblock

theorem namesHeights_liveRows (hC : ValidChain D C) : NamesHeights (liveRows D C a b) := by
  intro e he
  obtain ⟨-, -, _, hblock, -⟩ := filledRange_heights he
  have hlt := chainBlock_lt hblock
  have hbound := hC.length_lt
  rw [liveRows_blockRow he, toNat_ofNat_height (by omega)]

theorem exists_liveRow (hC : ValidChain D C) (hb : b ≤ C.length) {height : Nat}
    (hle : a ≤ height) (hlt : height < b) : ∃ e ∈ liveRows D C a b, e.1 = height := by
  obtain ⟨block, hblock⟩ := hC.exists_chainBlock (show height < C.length by omega)
  exact ⟨_, mem_filledRange hle (by omega) hblock, rfl⟩

theorem liveRows_append (hab : a ≤ b) (hbc : b ≤ c) (hc : c ≤ C.length) :
    liveRows D C a c = liveRows D C a b ++ liveRows D C b c := by
  have hreplay := @replayRange_replay C a (b - a) D (by omega)
  rw [show a + (b - a) = b by omega] at hreplay
  rw [liveRows, liveRows, liveRows, ← hreplay, show c - a = b - a + (c - b) by omega,
    filledRange_add, show a + (b - a) = b by omega]

/-- Only the blocks of the range matter. -/
theorem liveRows_take (hab : a ≤ b) (hb : b ≤ k) :
    liveRows D (C.take k) a b = liveRows D C a b := by
  rw [liveRows, liveRows, List.take_take, Nat.min_eq_left (by omega)]
  refine List.filterMap_congr fun i hi => ?_
  have hlt := List.mem_range.mp hi
  have hblock : chainBlock D (C.take k) (a + i) = chainBlock D C (a + i) := by
    rw [chainBlock, chainBlock, List.getElem?_take_of_lt (by omega)]
  have hreplay : ∀ S, replayRange D (C.take k) a S i = replayRange D C a S i := by
    intro S
    rw [replayRange, replayRange, List.drop_take, List.take_take, Nat.min_eq_left (by omega)]
  rw [hblock, hreplay]

end Rows

/-! ## The parts of a session -/

/-- The directory after the writes of a session from `n` blocks to `m`. -/
def sessionOut (D : Digests) (C : List RawBlock) (n m : Nat) (dir : OutDir) : OutDir :=
  ((writesOf (liveRows D C n m)).foldl LiveSink.writeBlock
    (.create dir (n / liveBlocksPerPart))).dir

/-- The part that is open when the session ends. -/
def openPart (n m : Nat) : Nat := max (n / liveBlocksPerPart) ((m - 1) / liveBlocksPerPart)

section Parts

variable {D : Digests} {C : List RawBlock} {n m : Nat}

/-- The parts from the first to the one that is open are new, and the open one cannot be
read. -/
theorem sessionOut_eq (hC : ValidChain D C) (hle : n ≤ m) (hm : m ≤ C.length) (dir : OutDir)
    (p : Nat) : sessionOut D C n m dir p =
      if p = openPart n m then .empty
      else if n / liveBlocksPerPart ≤ p ∧ p < openPart n m then
        partRows liveBlocksPerPart p (liveRows D C n m)
      else dir p := by
  have hfst : (liveRows D C n m).map Prod.fst = List.range' n (m - n) :=
    filledRange_fst hC fillFees _ (by omega)
  have hascending : ((liveRows D C n m).map Prod.fst).Pairwise (· ≤ ·) := by
    rw [hfst]
    exact List.pairwise_le_range'
  have hstart : ∀ e ∈ liveRows D C n m, n / liveBlocksPerPart ≤ e.1 / liveBlocksPerPart :=
    fun e he => Nat.div_le_div_right (liveRows_height he).1
  obtain ⟨hbelow, hopen, hcontents⟩ := LiveSink.contents_ascending dir _
    (namesHeights_liveRows hC) hascending hstart
  have hempty := LiveSink.dir_part dir (n / liveBlocksPerPart) (writesOf (liveRows D C n m))
  unfold sessionOut
  generalize (writesOf (liveRows D C n m)).foldl LiveSink.writeBlock
    (.create dir (n / liveBlocksPerPart)) = s at *
  have hrow : ∀ height, n ≤ height → height < m → ∃ e ∈ liveRows D C n m, e.1 = height :=
    fun height hge hlt => exists_liveRow hC hm hge hlt
  have hfirst : n / liveBlocksPerPart ≤ s.part := by
    rcases hopen with hfirst | ⟨e, he, hlater⟩
    · exact hfirst.ge
    · exact hlater ▸ hstart e he
  have hpart : s.part = openPart n m := by
    unfold openPart
    rcases Nat.lt_or_eq_of_le hle with hlt | rfl
    · obtain ⟨last, hmem, hlast⟩ := hrow (m - 1) (by omega) (by omega)
      have hge := hlast ▸ hbelow last hmem
      rcases hopen with hfirst | ⟨e, he, hlater⟩
      · omega
      · have := (liveRows_height he).2
        have : e.1 / liveBlocksPerPart ≤ (m - 1) / liveBlocksPerPart :=
          Nat.div_le_div_right (by omega)
        omega
    · have : (n - 1) / liveBlocksPerPart ≤ n / liveBlocksPerPart := Nat.div_le_div_right (by omega)
      rcases hopen with hfirst | ⟨e, he, -⟩
      · omega
      · have := liveRows_height he
        omega
  have hclosed : ∀ p ≠ openPart n m, s.dir p = s.contents p := by
    intro p hp
    rw [LiveSink.contents, hpart, if_neg hp]
  split_ifs with hp hin
  · rw [hp, ← hpart]
    exact hempty
  · -- A part between the two has a row: that of its first height, or of the session's.
    rw [hclosed p hp, hcontents, if_pos]
    obtain ⟨e, he, heq⟩ := hrow (max n (liveBlocksPerPart * p)) (by omega) (by
      simp only [openPart, liveBlocksPerPart] at hin ⊢
      omega)
    refine .inr ⟨e, he, ?_⟩
    simp only [heq, liveBlocksPerPart] at hin ⊢
    omega
  · rw [hclosed p hp, hcontents, if_neg]
    rintro (rfl | ⟨e, he, rfl⟩)
    · omega
    · have := hstart e he
      have := hbelow e he
      omega

end Parts

/-! ## A session beside a growing chain -/

/-- A live store with the first `n` blocks of `C`: no undo record is wrong, and those of the
blocks from `a` on are there. -/
structure Stands (D : Digests) (C : List RawBlock) (a n : Nat) (s : UtxoStore) : Prop where
  live : s.Live
  utxo : s.db.utxo = replay D (C.take n)
  undo : ∀ height < n, s.db.undo (UInt32.ofNat height) = undoRecord D C height ∨
    height < a ∧ s.db.undo (UInt32.ofNat height) = none
  tip : ∃ tip, s.tip = some tip ∧ TipOn D C (n - 1) tip
  pos : 0 < n

/-- A node whose best chain is the first `k` blocks of `C` all the while. -/
structure Shows (D : Digests) (C : List RawBlock) (k : Nat) (node : Nat → NodeView) : Prop where
  le_length : k ≤ C.length
  serves : ∀ i, Serves D (C.take k) (node i)

/-- The wake-ups of a loop beside a node that is growing along `C`, or down for a while: the
store comes from `n` blocks to `m`. -/
inductive Watches (D : Digests) (C : List RawBlock) (subscribed : Bool) :
    Nat → List Wakeup → Nat → Prop
  | done (n : Nat) : Watches D C subscribed n [] n
  | skips {n m : Nat} {wakeup : Wakeup} {wakeups : List Wakeup}
      (hasks : ¬wakeup.Asks subscribed) (hrest : Watches D C subscribed n wakeups m) :
      Watches D C subscribed n (wakeup :: wakeups) m
  | grows {n k m : Nat} {wakeup : Wakeup} {wakeups : List Wakeup}
      (hasks : wakeup.Asks subscribed) (hle : n ≤ k) (hshows : Shows D C k wakeup.node)
      (hrest : Watches D C subscribed k wakeups m) :
      Watches D C subscribed n (wakeup :: wakeups) m
  /-- With a subscriber the error is logged. -/
  | down {n m : Nat} {wakeup : Wakeup} {wakeups : List Wakeup}
      (hsubscribed : subscribed = true) (hasks : wakeup.Asks subscribed)
      (hfails : ∀ i, Fails (wakeup.node i)) (hrest : Watches D C subscribed n wakeups m) :
      Watches D C subscribed n (wakeup :: wakeups) m
  /-- Without one it ends the process. -/
  | ends {n : Nat} {wakeup : Wakeup} {wakeups : List Wakeup} (hpolls : subscribed = false)
      (hfails : ∀ i, Fails (wakeup.node i)) : Watches D C subscribed n (wakeup :: wakeups) n

/-- A session that brings the store from `n` blocks to `m`. -/
structure LiveSession.Spans (D : Digests) (C : List RawBlock) (n m : Nat)
    (session : LiveSession) : Prop where
  digests : session.env.digests = D
  writes : ∀ i, session.env.writeFault i = none
  /-- The first catch-up, then the loop; an error of the first one ends the process. -/
  watches : (∃ k, n ≤ k ∧ Shows D C k session.env.node ∧
    Watches D C session.subscribed k session.wakeups m) ∨
    (∀ i, Fails (session.env.node i)) ∧ m = n

section Session

variable {D : Digests} {C : List RawBlock} {a n k m : Nat} {s : UtxoStore} {env : TrackerEnv}
  {w : World} {subscribed : Bool} {wakeups : List Wakeup} {session : LiveSession}

theorem Watches.le (h : Watches D C subscribed n wakeups m) : n ≤ m := by
  induction h with
  | done => exact le_rfl
  | skips _ _ ih => exact ih
  | grows _ hle _ _ ih => exact hle.trans ih
  | down _ _ _ _ ih => exact ih
  | ends => exact le_rfl

/-- What a run has done by the time it is over or goes on: it has come from `n` blocks to `m`
and handed on their rows. -/
structure Advanced (D : Digests) (C : List RawBlock) (a n m : Nat) (w w' : World) : Prop where
  le : n ≤ m
  le_length : m ≤ C.length
  stands : Stands D C a m w'.store
  rows : appliedRows w'.events = appliedRows w.events ++
    (liveRows D C n m).map fun e => (UInt32.ofNat e.1, e.2)

theorem Advanced.refl (h : Stands D C a n w.store) (hle : n ≤ C.length) {w' : World}
    (hstore : w'.store = w.store) (hevents : w'.events = w.events) : Advanced D C a n n w w' where
  le := le_rfl
  le_length := hle
  stands := hstore ▸ h
  rows := by
    rw [hevents, liveRows, Nat.sub_self]
    exact (List.append_nil _).symm

theorem Advanced.trans {w' w'' : World} (h : Advanced D C a n k w w')
    (h' : Advanced D C a k m w' w'') : Advanced D C a n m w w'' where
  le := h.le.trans h'.le
  le_length := h'.le_length
  stands := h'.stands
  rows := by
    rw [h'.rows, h.rows, liveRows_append h.le h'.le h'.le_length, List.map_append,
      List.append_assoc]

theorem Stands.le_length (h : Stands D C a n s) : n ≤ C.length := by
  obtain ⟨-, -, raw, hraw, -⟩ := h.tip
  have := (List.getElem?_eq_some_iff.mp hraw).1
  have := h.pos
  omega

/-- A catch-up with a node that shows `k` blocks. -/
theorem Stands.catchUp (h : Stands D C a n w.store) (hC : ValidChain D C) (hle : n ≤ k)
    (hshows : Shows D C k env.node) (hdigests : env.digests = D)
    (hwrites : ∀ i, env.writeFault i = none) :
    Fallible.wp (Tracker.catchUp env) (fun _ w' => Advanced D C a n k w w')
      (fun _ _ => False) w := by
  obtain ⟨tip, htip, raw, hraw, rfl⟩ := h.tip
  have hpos := h.pos
  have hk := hshows.le_length
  have hB : ValidChain D (C.take k) := hC.take k
  have henv : Undisturbed D (C.take k) env := ⟨hdigests, hshows.serves, hwrites⟩
  have hon : TipOn D (C.take k) (n - 1) (tipOf D (n - 1) raw) :=
    ⟨raw, by rwa [List.getElem?_take_of_lt (by omega)], rfl⟩
  have hlength : (C.take k).length = k := List.length_take_of_le hk
  have hsucc : n - 1 + 1 = n := by omega
  obtain ⟨w', hrun, hstore⟩ := henv.catchUp_onChain hB h.live htip hon
  have hrows := Fallible.of_wp_ok (henv.catchUp_emits hB h.live htip hon) hrun
  rw [hsucc] at hstore hrows
  have hutxo : w.store.db.utxo = replay D ((C.take k).take n) := by
    rw [h.utxo, List.take_take, Nat.min_eq_left hle]
  have hundo : ∀ height < k, w'.store.db.undo (UInt32.ofNat height) =
      if n ≤ height then undoRecord D C height
        else w.store.db.undo (UInt32.ofNat height) := by
    intro height hlt
    have htake : (C.take k).take (height + 1) = C.take (height + 1) := by
      rw [List.take_take, Nat.min_eq_left hlt]
    rw [hstore, followed_undo_ofNat hB hutxo (by omega) (by omega), undoRecord_of_take_eq htake]
  rw [Fallible.wp, hrun]
  refine ⟨hle, hk, ⟨?_, ?_, ?_, ?_, by omega⟩, ?_⟩
  · rw [hstore]
    exact h.live.followed _ _
  · rw [hstore]
    exact followed_utxo_end hutxo (by omega)
  · intro height hlt
    rw [hundo height hlt]
    split_ifs with hnew
    · exact .inl rfl
    · exact h.undo height (by omega)
  · have hend := tip_followed_end hB htip hon
    rw [hsucc, ← hstore, hlength] at hend
    obtain ⟨tip', htip', raw', hraw', rfl⟩ := hend
    exact ⟨_, htip', raw', by rwa [List.getElem?_take_of_lt (by omega)] at hraw', rfl⟩
  · rw [hrows, hutxo, hlength, ← liveRows_take hle le_rfl]
    rfl

/-- A catch-up with a node that is down. -/
theorem Stands.catchUp_down (h : Stands D C a n w.store) (hfails : Fails (env.node w.calls)) :
    Fallible.wp (Tracker.catchUp env) (fun _ _ => False)
      (fun stop w' => endsLoop stop = false ∧ Advanced D C a n n w w') w := by
  obtain ⟨e, he⟩ := hfails.blockCount
  rw [wp_catchUp_of_error he]
  exact ⟨rfl, .refl h h.le_length rfl rfl⟩

/-- What one wake-up leaves to the rest of the loop. -/
theorem wp_liveLoop_cons {Q E : World → Prop} {wakeup : Wakeup}
    (h : Fallible.wp (onWakeup env subscribed wakeup)
      (fun _ w' => Fallible.wp (liveLoop env subscribed wakeups) (fun _ => Q) (fun _ => E) w')
      (fun _ => E) w) :
    Fallible.wp (liveLoop env subscribed (wakeup :: wakeups)) (fun _ => Q) (fun _ => E) w := by
  rw [Tracker.liveLoop, Fallible.wp_bind]
  exact h

/-- The loop, whether it is still going on or has ended. -/
theorem Watches.liveLoop (hwatches : Watches D C subscribed n wakeups m)
    (h : Stands D C a n w.store) (hC : ValidChain D C) (hdigests : env.digests = D)
    (hwrites : ∀ i, env.writeFault i = none) :
    Fallible.wp (Tracker.liveLoop env subscribed wakeups)
      (fun _ w' => Advanced D C a n m w w') (fun _ w' => Advanced D C a n m w w') w := by
  induction hwatches generalizing w with
  | done => exact .refl h h.le_length rfl rfl
  | skips hasks _ ih => exact wp_liveLoop_cons (wp_onWakeup_of_skips hasks (ih h))
  | @grows n k m wakeup wakeups hasks hle hshows _ ih =>
      have hcatchUp : Fallible.wp (catchUp { env with node := wakeup.node }) _ _ w :=
        h.catchUp hC hle hshows hdigests hwrites
      refine wp_liveLoop_cons (wp_onWakeup_of_asks hasks (Fallible.wp_mono hcatchUp ?_
        fun _ _ hfalse => hfalse) fun _ _ hfalse => hfalse.elim)
      intro _ w' hfirst
      exact Fallible.wp_mono (ih hfirst.stands) (fun _ _ => hfirst.trans)
        fun _ _ => hfirst.trans
  | @down n m wakeup wakeups hsubscribed hasks hfails _ ih =>
      have hcatchUp : Fallible.wp (catchUp { env with node := wakeup.node }) _ _ w :=
        h.catchUp_down (hfails _)
      obtain ⟨hash, hmessage⟩ := hasks hsubscribed
      refine wp_liveLoop_cons ?_
      rw [onWakeup, if_pos hsubscribed, hmessage]
      refine wp_onBlock (Fallible.wp_mono hcatchUp (fun _ _ hfalse => hfalse.elim)
        fun _ _ hstop => hstop) ?_ fun _ _ hstop hends => ?_
      · rintro _ w' ⟨-, hsame⟩ -
        exact Fallible.wp_mono (ih hsame.stands) (fun _ _ => hsame.trans) fun _ _ => hsame.trans
      · rw [hstop.1] at hends
        contradiction
  | ends hpolls hfails =>
      have hcatchUp : Fallible.wp (catchUp { env with node := _ }) _ _ w :=
        h.catchUp_down (hfails _)
      refine wp_liveLoop_cons ?_
      rw [onWakeup, if_neg (by rw [hpolls]; exact Bool.false_ne_true)]
      exact Fallible.wp_mono hcatchUp (fun _ _ hfalse => hfalse.elim) fun _ _ hstop => hstop.2

theorem Stands.startPart (h : Stands D C a n s) (hC : ValidChain D C) :
    startPart s = n / liveBlocksPerPart := by
  obtain ⟨tip, htip, raw, -, rfl⟩ := h.tip
  have hpos := h.pos
  have hle := h.le_length
  have hbound := hC.length_lt
  rw [Bidx.startPart, htip]
  show ((UInt32.ofNat (n - 1) + 1).toNat) / _ = _
  rw [ofNat_add_one, show n - 1 + 1 = n by omega, toNat_ofNat_height (by omega)]

/-- A whole session: the store it leaves, and its writes. -/
theorem LiveSession.Spans.run (hspans : session.Spans D C n m) (hC : ValidChain D C)
    {disk : LiveDisk} (h : Stands D C a n (.openLive disk.db)) :
    n ≤ m ∧ m ≤ C.length ∧ Stands D C a m (.openLive (session.run disk).db) ∧
      (session.run disk).out = sessionOut D C n m disk.out := by
  have hadvanced : Fallible.wp (Tracker.run session.env session.subscribed session.wakeups)
      (fun _ w' => Advanced D C a n m (.start (.openLive disk.db)) w')
      (fun _ w' => Advanced D C a n m (.start (.openLive disk.db)) w')
      (.start (.openLive disk.db)) := by
    rcases hspans.watches with ⟨k, hle, hshows, hwatches⟩ | ⟨hfails, rfl⟩
    · refine Fallible.wp_seq (Fallible.wp_mono
        (h.catchUp (w := .start _) hC hle hshows hspans.digests hspans.writes)
        (fun _ _ hq => hq) fun _ _ hfalse => hfalse.elim) ?_
      intro _ w' hfirst
      exact Fallible.wp_mono (hwatches.liveLoop hfirst.stands hC hspans.digests hspans.writes)
        (fun _ _ => hfirst.trans) fun _ _ => hfirst.trans
    · exact Fallible.wp_seq (Fallible.wp_mono (h.catchUp_down (w := .start _) (hfails _))
        (fun _ _ hq => hq) fun _ _ hstop => hstop.2) fun _ _ hfalse => hfalse.elim
  have hleft := Fallible.after_of_wp hadvanced
  unfold LiveSession.run
  dsimp only
  generalize (Tracker.run session.env session.subscribed session.wakeups
    (.start (.openLive disk.db))).2 = w' at hleft ⊢
  refine ⟨hleft.le, hleft.le_length, ?_, ?_⟩
  · rw [hleft.stands.live.openLive_db]
    exact hleft.stands
  · rw [LiveSink.foldl_onEvent, hleft.rows, h.startPart hC]
    have hstart : appliedRows (World.start (.openLive disk.db)).events = [] := rfl
    rw [hstart, List.nil_append, List.map_map]
    rfl

end Session

/-! ## Sessions one after the other -/

/-- The session opened the part and closed it again. -/
def ClosesPart (p : Nat) (span : Nat × Nat) : Prop :=
  span.1 / liveBlocksPerPart ≤ p ∧ p < openPart span.1 span.2

/-- What a part holds after sessions from some block counts to others: the rows of the one
session that closed it, if there was one. -/
def PartHolds (D : Digests) (C : List RawBlock) (p : Nat) (spans : List (Nat × Nat))
    (rows : Rows) : Prop :=
  (∃ span ∈ spans, ClosesPart p span ∧ (∀ other ∈ spans, ClosesPart p other → other = span) ∧
    rows = partRows liveBlocksPerPart p (liveRows D C span.1 span.2)) ∨
  (∀ span ∈ spans, ¬ClosesPart p span) ∧ rows = .empty

/-- All rows of a part. -/
def livePart (D : Digests) (C : List RawBlock) (p : Nat) : Rows :=
  partRows liveBlocksPerPart p (liveRows D C 0 C.length)

section Sessions

variable {D : Digests} {C : List RawBlock} {a n m p : Nat} {spans : List (Nat × Nat)}
  {span : Nat × Nat} {rows : Rows}

/-- A closed part is below the next session. -/
theorem ClosesPart.lt (h : ClosesPart p span) (hle : span.2 ≤ n) : p < n / liveBlocksPerPart := by
  obtain ⟨hge, hlt⟩ := h
  have : (span.2 - 1) / liveBlocksPerPart ≤ n / liveBlocksPerPart :=
    Nat.div_le_div_right (by omega)
  unfold openPart at hlt
  omega

/-- One more session. -/
theorem PartHolds.session {out : OutDir} (h : PartHolds D C p spans (out p))
    (hspans : ∀ span ∈ spans, span.2 ≤ n) (hC : ValidChain D C) (hle : n ≤ m)
    (hm : m ≤ C.length) :
    PartHolds D C p (spans ++ [(n, m)]) (sessionOut D C n m out p) := by
  have hfirst : n / liveBlocksPerPart ≤ openPart n m := Nat.le_max_left _ _
  rw [sessionOut_eq hC hle hm]
  by_cases hcloses : ClosesPart p (n, m)
  · obtain ⟨hge, hlt⟩ : n / liveBlocksPerPart ≤ p ∧ p < openPart n m := hcloses
    -- No session before has got to it.
    have hnone : ∀ span ∈ spans, ¬ClosesPart p span := by
      intro span hmem hbefore
      have := hbefore.lt (hspans span hmem)
      omega
    rw [if_neg (by omega), if_pos ⟨hge, hlt⟩]
    refine .inl ⟨(n, m), by simp, ⟨hge, hlt⟩, ?_, rfl⟩
    intro other hother hother'
    rcases List.mem_append.mp hother with hold | hnew
    · exact absurd hother' (hnone other hold)
    · exact List.mem_singleton.mp hnew
  · have hrest : ∀ other ∈ spans ++ [(n, m)], ClosesPart p other → other ∈ spans := by
      intro other hother hother'
      rcases List.mem_append.mp hother with hold | hnew
      · exact hold
      · obtain rfl := List.mem_singleton.mp hnew
        exact absurd hother' hcloses
    rcases h with ⟨span, hmem, hspan, hunique, hrows⟩ | ⟨hnone, hrows⟩
    · have hbelow := hspan.lt (hspans span hmem)
      rw [if_neg (by omega), if_neg (by omega)]
      exact .inl ⟨span, by simp [hmem], hspan,
        fun other hother hother' => hunique other (hrest other hother hother') hother', hrows⟩
    · refine .inr ⟨fun other hother hother' => hnone other (hrest other hother hother') hother', ?_⟩
      split_ifs with hopen hin
      · rfl
      · exact absurd hin hcloses
      · exact hrows

/-- All sessions. -/
theorem runSessions_partHolds {sessions : List LiveSession} {ends : List Nat} {disk : LiveDisk}
    (hC : ValidChain D C) (h : Stands D C a n (.openLive disk.db))
    (hspans : ∀ span ∈ spans, span.1 ≤ span.2 ∧ span.2 ≤ n)
    (hparts : ∀ p, PartHolds D C p spans (disk.out p))
    (hsessions : List.Forall₂ (fun session span => session.Spans D C span.1 span.2) sessions
      ((n :: ends).zip ends)) :
    Stands D C a (ends.getLastD n) (.openLive (runSessions sessions disk).db) ∧
      (∀ span ∈ spans ++ (n :: ends).zip ends, span.1 ≤ span.2 ∧ span.2 ≤ ends.getLastD n) ∧
      ∀ p, PartHolds D C p (spans ++ (n :: ends).zip ends) ((runSessions sessions disk).out p) := by
  induction ends generalizing sessions n disk spans with
  | nil =>
      cases hsessions
      rw [List.zip_nil_right, List.append_nil]
      exact ⟨h, hspans, hparts⟩
  | cons m ends ih =>
      rw [List.zip_cons_cons] at hsessions ⊢
      rw [List.getLastD_cons]
      cases hsessions with
      | @cons session _ sessions _ hsession hrest =>
          obtain ⟨hle, hm, hstands, hout⟩ := hsession.run hC h
          have hspans' : ∀ span ∈ spans ++ [(n, m)], span.1 ≤ span.2 ∧ span.2 ≤ m := by
            intro span hmem
            rcases List.mem_append.mp hmem with hold | hnew
            · exact ⟨(hspans span hold).1, (hspans span hold).2.trans hle⟩
            · obtain rfl := List.mem_singleton.mp hnew
              exact ⟨hle, le_rfl⟩
          have hparts' : ∀ p, PartHolds D C p (spans ++ [(n, m)]) ((session.run disk).out p) := by
            intro p
            rw [hout]
            exact (hparts p).session (fun span hmem => (hspans span hmem).2) hC hle hm
          have hall := ih hstands hspans' hparts' hrest
          rw [List.append_assoc, List.singleton_append] at hall
          exact hall

/-- The rows of a part that lies within a range are all its rows. -/
theorem partRows_liveRows (hn : n ≤ liveBlocksPerPart * p) (hm : liveBlocksPerPart * (p + 1) ≤ m)
    (hlength : m ≤ C.length) :
    partRows liveBlocksPerPart p (liveRows D C n m) = livePart D C p := by
  have hsplit : liveRows D C 0 C.length =
      liveRows D C 0 n ++ (liveRows D C n m ++ liveRows D C m C.length) := by
    simp only [liveBlocksPerPart] at hn hm
    rw [← liveRows_append (by omega) hlength le_rfl, ← liveRows_append (by omega) (by omega) le_rfl]
  have hoff : ∀ {a b : Nat}, b ≤ liveBlocksPerPart * p ∨ liveBlocksPerPart * (p + 1) ≤ a →
      partRows liveBlocksPerPart p (liveRows D C a b) = .empty := by
    intro a b hoff
    refine partRows_eq_empty fun e he heq => ?_
    have := liveRows_height he
    simp only [liveBlocksPerPart] at hoff heq
    omega
  rw [livePart, hsplit, partRows_append, partRows_append, hoff (.inl hn), hoff (.inr hm),
    Rows.empty_append, Rows.append_empty]

/-- A part that begins before the range lacks the block at its beginning. -/
theorem not_perm_livePart (hC : ValidChain D C) (hp : liveBlocksPerPart * p < C.length)
    (hn : liveBlocksPerPart * p < n) :
    ¬(partRows liveBlocksPerPart p (liveRows D C n m)).Perm (livePart D C p) := by
  intro hperm
  obtain ⟨e, he, heq⟩ := exists_liveRow (a := 0) hC le_rfl (Nat.zero_le _) hp
  have hmem : e.2.1.blockRow ∈ (livePart D C p).blocks := by
    refine mem_partRows.mpr ⟨e, he, ?_, rfl⟩
    rw [heq]
    exact Nat.mul_div_cancel_left p (by decide)
  obtain ⟨e', he', -, hsame⟩ := mem_partRows.mp (hperm.blocks.mem_iff.mpr hmem)
  have hheight := congrArg (fun row : BlockRow => row.height.toNat) hsame
  simp only [namesHeights_liveRows hC e he, namesHeights_liveRows hC e' he'] at hheight
  have := (liveRows_height he').1
  omega

/-- Live sessions beside a node whose chain grows, into a new output directory.  The store ends
with the table, the tip and the undo records of the blocks it was shown.  A part's files hold
the rows of its blocks if and only if one session applied all of them, and the first block of
the next part too: every end of a session costs the part it stands in. -/
theorem runSessions_part_complete_iff {sessions : List LiveSession} {ends : List Nat} {db : Db}
    (hC : ValidChain D C) (h : Stands D C a n (.openLive db))
    (hsessions : List.Forall₂ (fun session span => session.Spans D C span.1 span.2) sessions
      ((n :: ends).zip ends)) :
    Stands D C a (ends.getLastD n) (.openLive (runSessions sessions ⟨db, .fresh⟩).db) ∧
      ∀ p, liveBlocksPerPart * p < C.length →
        (((runSessions sessions ⟨db, .fresh⟩).out p).Perm (livePart D C p) ↔
          ∃ span ∈ (n :: ends).zip ends, span.1 ≤ liveBlocksPerPart * p ∧
            liveBlocksPerPart * (p + 1) < span.2) := by
  have hnone : ∀ p, PartHolds D C p [] (OutDir.fresh p) := fun p => .inr ⟨by simp, rfl⟩
  have hfresh : Stands D C a n (.openLive (LiveDisk.mk db .fresh).db) := h
  obtain ⟨hstands, hspans, hparts⟩ := runSessions_partHolds hC hfresh (by simp) hnone hsessions
  rw [List.nil_append] at hspans hparts
  have hlength := hstands.le_length
  refine ⟨hstands, fun p hp => ?_⟩
  constructor
  · intro hperm
    rcases hparts p with ⟨span, hmem, hcloses, -, hrows⟩ | ⟨-, hrows⟩
    · refine ⟨span, hmem, ?_, ?_⟩
      · by_contra hlater
        rw [hrows] at hperm
        exact not_perm_livePart hC hp (by omega) hperm
      · obtain ⟨hge, hlt⟩ := hcloses
        simp only [openPart, liveBlocksPerPart] at hge hlt ⊢
        omega
    · rw [hrows] at hperm
      have hnil : partRows liveBlocksPerPart p (liveRows D C C.length 0) = .empty := by
        rw [liveRows, Nat.zero_sub]
        rfl
      exact absurd (hnil ▸ hperm) (not_perm_livePart hC hp hp)
  · rintro ⟨span, hmem, hfrom, hto⟩
    have hcloses : ClosesPart p span := by
      simp only [ClosesPart, openPart, liveBlocksPerPart] at hfrom hto ⊢
      omega
    rcases hparts p with ⟨other, -, -, hunique, hrows⟩ | ⟨hnone, -⟩
    · rw [hrows, ← hunique span hmem hcloses,
        partRows_liveRows hfrom hto.le ((hspans span hmem).2.trans hlength)]
      exact .refl _
    · exact absurd hcloses (hnone span hmem)

end Sessions

/-! Two blocks after the genesis block, with a restart between them. -/

def sampleSessions : List LiveSession := [
  ⟨quietEnv treeDigests (newChain.take 2), false,
    [⟨.error .zmq, fun _ => .failing .http⟩]⟩,
  ⟨quietEnv treeDigests (newChain.take 2), true,
    [⟨.ok [], flakyNode treeDigests newChain⟩,
      ⟨.ok blockMessage, fun _ => serving treeDigests newChain⟩]⟩]

theorem shows_serving {count : Nat} (hle : count ≤ newChain.length) :
    Shows treeDigests newChain count fun _ => serving treeDigests (newChain.take count) where
  le_length := hle
  serves _ := by
    refine serves_serving (newChain_valid.take count).length_lt ?_
    · rw [List.map_take]
      exact newChain_hashes_nodup.sublist (List.take_sublist _ _)

theorem runSessions_part_complete_sample :
    Stands treeDigests newChain 0 3 (.openLive
      (runSessions sampleSessions ⟨(chainStore treeDigests (newChain.take 1)).db, .fresh⟩).db) ∧
    ¬((runSessions sampleSessions ⟨(chainStore treeDigests (newChain.take 1)).db, .fresh⟩).out
      0).Perm (livePart treeDigests newChain 0) := by
  have hholds := holdsChain_chainStore (D := treeDigests) (A := newChain.take 1)
    (by simp [newChain]) (by decide)
  have hstands : Stands treeDigests newChain 0 1
      (.openLive (chainStore treeDigests (newChain.take 1)).db) := by
    rw [hholds.live.openLive_db]
    obtain ⟨tip, htip, raw, hraw, heq⟩ := hholds.tip
    refine ⟨hholds.live, hholds.utxo, ?_, ⟨tip, htip, raw, hraw, heq⟩, by decide⟩
    intro height hlt
    have hsame : undoRecord treeDigests (newChain.take 1) height =
        undoRecord treeDigests newChain height :=
      undoRecord_of_take_eq (by rw [List.take_take, Nat.min_eq_left hlt])
    exact .inl (hsame ▸ chainStore_undo (by omega))
  have hfirst : LiveSession.Spans treeDigests newChain 1 2
      ⟨quietEnv treeDigests (newChain.take 2), false, [⟨.error .zmq, fun _ => .failing .http⟩]⟩ :=
    ⟨rfl, fun _ => rfl, .inl ⟨2, by decide, shows_serving (by decide),
      .ends rfl fun _ => NodeView.fails_failing _⟩⟩
  have hshows : Shows treeDigests newChain 3 fun _ => serving treeDigests newChain :=
    shows_serving le_rfl
  have hmalformed : ¬Wakeup.Asks true ⟨.ok [], flakyNode treeDigests newChain⟩ := by
    intro h
    obtain ⟨hash, hmessage⟩ := h rfl
    cases hmessage
  have hsecond : LiveSession.Spans treeDigests newChain 2 3
      ⟨quietEnv treeDigests (newChain.take 2), true,
        [⟨.ok [], flakyNode treeDigests newChain⟩,
          ⟨.ok blockMessage, fun _ => serving treeDigests newChain⟩]⟩ :=
    ⟨rfl, fun _ => rfl, .inl ⟨2, by decide, shows_serving (by decide),
      .skips hmalformed (.grows (fun _ => ⟨_, rfl⟩) (by decide) hshows (.done 3))⟩⟩
  have hsessions : List.Forall₂ (fun session span => session.Spans treeDigests newChain span.1
      span.2) sampleSessions ([1, 2, 3].zip [2, 3]) := .cons hfirst (.cons hsecond .nil)
  have hrun := runSessions_part_complete_iff newChain_valid hstands hsessions
  refine ⟨hrun.1, fun hperm => ?_⟩
  obtain ⟨span, hmem, -, hlt⟩ := (hrun.2 0 (by decide)).mp hperm
  revert hlt
  simp only [List.zip_cons_cons, List.zip_nil_right, List.mem_cons, List.not_mem_nil,
    or_false] at hmem
  rcases hmem with rfl | rfl <;> decide

end Bidx
