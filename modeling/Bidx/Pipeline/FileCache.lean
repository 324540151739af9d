import Mathlib.Data.List.AList
import Bidx.Lib.Lru
import Bidx.Parser.BlocksDir

/-!
# The shared file cache

All workers share one cache of opened blk files: a map from file numbers to files and
a list of file numbers, least recently used first, each behind a lock of its own.  A
call of `block_bytes` looks its file up, opens and inserts it on a miss, touches its
number in either case, and then reads from the file it holds, which may have been
dropped from the map in the meantime.

A step is one section of one call: the lookup, the opening, the insertion, the touch
with its evictions, or the final read.  Between the insertion and the touch a file is
in the map and possibly not in the list; that is the only way a file can be resident
without being listed (`CacheInv`).  The blocks directory does not change.
-/

namespace Bidx

/-- `MAX_CACHED_FILES`. -/
def maxCachedFiles : Nat := 16

abbrev FileMap := AList fun _ : UInt32 => MappedBlkFile

/-- `CacheInner`. -/
structure CacheInner where
  lru : List UInt32
  map : FileMap

/-! ## Sections of a call -/

/-- The loop of `touch` that drops the oldest numbers above the capacity. -/
def evictLoop (fileId : UInt32) : List UInt32 → FileMap → CacheInner
  | [], map => ⟨[], map⟩
  | old :: lru, map =>
      if maxCachedFiles < (old :: lru).length then
        evictLoop fileId lru (if old ≠ fileId then map.erase old else map)
      else
        ⟨old :: lru, map⟩

/-- `touch`. -/
def CacheInner.touch (inner : CacheInner) (fileId : UInt32) : CacheInner :=
  evictLoop fileId (inner.lru.erase fileId ++ [fileId]) inner.map

/-- The name `blk{:05}.dat`. -/
def blkFileName (fileId : UInt32) : List Char :=
  "blk".toList ++ List.leftpad 5 '0' (Nat.toDigits 10 fileId.toNat) ++ ".dat".toList

/-- `BlkFile::open` on the file of a number. -/
def openBlkFile (dir : BlocksDir) (fileId : UInt32) : Except BlkError MappedBlkFile :=
  MappedBlkFile.openAt fileId (dir.read (blkFileName fileId)) (dir.read xorDatName)

/-- A call of `block_bytes` between two sections, with the location asked for and the
file it holds. -/
inductive CacheCall where
  | started (loc : BlockLocation)
  /-- Found in the map; about to touch. -/
  | hit (loc : BlockLocation) (f : MappedBlkFile)
  /-- Not found; about to open. -/
  | missed (loc : BlockLocation)
  | opened (loc : BlockLocation) (f : MappedBlkFile)
  /-- Inserted; about to touch. -/
  | inserted (loc : BlockLocation) (f : MappedBlkFile)
  | touched (loc : BlockLocation) (f : MappedBlkFile)

abbrev BytesResult := Except (Stop BlkError) (List UInt8)

/-- After a section the call goes on or returns. -/
inductive CacheProgress where
  | goesOn (call : CacheCall)
  | returns (result : BytesResult)

/-- The next section of a call. -/
def CacheInner.advance (dir : BlocksDir) (inner : CacheInner) :
    CacheCall → CacheInner × CacheProgress
  | .started loc =>
      match inner.map.lookup loc.fileId with
      | some f => (inner, .goesOn (.hit loc f))
      | none => (inner, .goesOn (.missed loc))
  | .hit loc f => (inner.touch loc.fileId, .goesOn (.touched loc f))
  | .missed loc =>
      match openBlkFile dir loc.fileId with
      | .error e => (inner, .returns (.error (.error e)))
      | .ok f => (inner, .goesOn (.opened loc f))
  | .opened loc f =>
      ({ inner with map := inner.map.insert loc.fileId f }, .goesOn (.inserted loc f))
  | .inserted loc f => (inner.touch loc.fileId, .goesOn (.touched loc f))
  | .touched loc f => (inner, .returns (f.blockBytes loc))

/-! ## Threads -/

/-- A thread: the call it is in, and what its earlier calls returned, oldest first. -/
structure CacheThread where
  call : Option CacheCall
  returned : List BytesResult

/-- The thread after a section of its call. -/
def CacheThread.resume (t : CacheThread) : CacheProgress → CacheThread
  | .goesOn call => { t with call := some call }
  | .returns result => ⟨none, t.returned ++ [result]⟩

/-- The cache and the threads that share it. -/
structure SharedCache where
  inner : CacheInner
  threads : List CacheThread

/-- A thread's turn: it starts a call, or its call runs its next section. -/
inductive CacheTurn where
  | call (thread : Nat) (loc : BlockLocation)
  | advance (thread : Nat)

namespace SharedCache

/-- `ThreadFileCache::new`, shared by threads that have not called it. -/
def initial (threads : Nat) : SharedCache := ⟨⟨[], ∅⟩, List.replicate threads ⟨none, []⟩⟩

/-- One turn, where the thread can take it. -/
def step (dir : BlocksDir) (s : SharedCache) : CacheTurn → Option SharedCache
  | .call i loc =>
      match s.threads[i]? with
      | some ⟨none, returned⟩ => some {
          s with threads := s.threads.set i ⟨some (.started loc), returned⟩ }
      | _ => none
  | .advance i =>
      match s.threads[i]? with
      | some ⟨some call, returned⟩ =>
          let (inner, progress) := s.inner.advance dir call
          some ⟨inner, s.threads.set i (CacheThread.resume ⟨some call, returned⟩ progress)⟩
      | _ => none

/-- A run: the turns in any order the threads can take them in. -/
def run (dir : BlocksDir) (turns : List CacheTurn) (s : SharedCache) : Option SharedCache :=
  turns.foldlM (step dir) s

/-- `resident`. -/
def resident (s : SharedCache) : Nat := s.inner.map.keys.length

def callsInProgress (s : SharedCache) : Nat := s.threads.countP fun t => t.call.isSome

end SharedCache

namespace CacheTurn

/-- The location thread `i` asks for in a turn. -/
def asks (i : Nat) : CacheTurn → Option BlockLocation
  | call j loc => if j = i then some loc else none
  | advance _ => none

/-- A turn that runs a section of thread `i`'s call. -/
def advances (i : Nat) : CacheTurn → Bool
  | call _ _ => false
  | advance j => j = i

end CacheTurn

/-- The locations of thread `i`'s calls, in order. -/
def asked (i : Nat) (turns : List CacheTurn) : List BlockLocation :=
  turns.filterMap (CacheTurn.asks i)

/-- How many sections thread `i`'s calls have run. -/
def sections (i : Nat) (turns : List CacheTurn) : Nat := turns.countP (CacheTurn.advances i)

/-- What a call should return: the file opened for it alone, and read. -/
def blockBytesDirect (dir : BlocksDir) (loc : BlockLocation) : BytesResult :=
  match openBlkFile dir loc.fileId with
  | .error e => .error (.error e)
  | .ok f => f.blockBytes loc

/-! ## What a touch does -/

section Touch

variable {inner : CacheInner} {fileId b : UInt32} {f : MappedBlkFile}

theorem evictLoop_lru (fileId : UInt32) (l : List UInt32) (map : FileMap) :
    (evictLoop fileId l map).lru = l.drop (l.length - maxCachedFiles) := by
  induction l generalizing map with
  | nil => rfl
  | cons old l ih =>
      rw [evictLoop]
      by_cases hover : maxCachedFiles < (old :: l).length
      · rw [if_pos hover, ih]
        rw [List.length_cons] at hover ⊢
        rw [show l.length + 1 - maxCachedFiles = l.length - maxCachedFiles + 1 by omega,
          List.drop_succ_cons]
      · rw [if_neg hover, show (old :: l).length - maxCachedFiles = 0 by omega, List.drop_zero]

/-- One turn of the loop on the map. -/
theorem lookup_dropped (fileId old b : UInt32) (map : FileMap) :
    (if old ≠ fileId then map.erase old else map).lookup b =
      if b = old ∧ b ≠ fileId then none else map.lookup b := by
  by_cases hself : old = fileId
  · rw [if_neg (not_not.mpr hself), if_neg]
    rintro ⟨hold, hb⟩
    exact hb (hold.trans hself)
  · rw [if_pos hself]
    by_cases hold : b = old
    · rw [hold, if_pos ⟨rfl, hself⟩]
      exact AList.lookup_erase old map
    · rw [if_neg (fun h => hold h.1)]
      exact AList.lookup_erase_ne hold

/-- The dropped numbers leave the map, the touched one excepted. -/
theorem evictLoop_lookup (fileId : UInt32) (l : List UInt32) (map : FileMap) (b : UInt32) :
    (evictLoop fileId l map).map.lookup b =
      if b ∈ l.take (l.length - maxCachedFiles) ∧ b ≠ fileId then none else map.lookup b := by
  induction l generalizing map with
  | nil => simp [evictLoop]
  | cons old l ih =>
      rw [evictLoop]
      by_cases hover : maxCachedFiles < (old :: l).length
      · rw [if_pos hover, ih]
        rw [List.length_cons] at hover ⊢
        rw [show l.length + 1 - maxCachedFiles = l.length - maxCachedFiles + 1 by omega,
          List.take_succ_cons]
        rw [lookup_dropped]
        simp only [List.mem_cons]
        by_cases hself : b = fileId
        · simp [hself]
        · by_cases hold : b = old
          · subst hold
            simp [hself]
          · simp [hold]
      · rw [if_neg hover, show (old :: l).length - maxCachedFiles = 0 by omega, List.take_zero]
        simp

theorem touch_lru (inner : CacheInner) (fileId : UInt32) :
    (inner.touch fileId).lru = Lru.touch maxCachedFiles fileId inner.lru := by
  rw [CacheInner.touch, evictLoop_lru]
  rfl

theorem touch_lookup (inner : CacheInner) (fileId b : UInt32) :
    (inner.touch fileId).map.lookup b =
      if b ∈ Lru.evicted maxCachedFiles fileId inner.lru ∧ b ≠ fileId then none
      else inner.map.lookup b := by
  rw [CacheInner.touch, evictLoop_lookup]
  rfl

/-- A touch adds no file to the map. -/
theorem lookup_of_touch (h : (inner.touch fileId).map.lookup b = some f) :
    inner.map.lookup b = some f := by
  rw [touch_lookup] at h
  split_ifs at h
  exact h

/-- What is listed and stays resident stays listed, and so is what is touched. -/
theorem mem_lru_touch (h : (inner.touch fileId).map.lookup b = some f)
    (hb : b ∈ inner.lru ∨ b = fileId) : b ∈ (inner.touch fileId).lru := by
  rw [touch_lookup] at h
  rw [touch_lru]
  by_cases hsame : b = fileId
  · rw [hsame]
    exact Lru.mem_touch_self (by decide)
  · rcases Lru.mem_touch_or_evicted (hb.resolve_right hsame) with hstays | hdropped
    · exact hstays
    · rw [if_pos ⟨hdropped, hsame⟩] at h
      cases h

end Touch

/-! ## What a section does -/

namespace CacheCall

def loc : CacheCall → BlockLocation
  | started loc | missed loc => loc
  | hit loc _ | opened loc _ | inserted loc _ | touched loc _ => loc

/-- The file a call holds. -/
def file : CacheCall → Option MappedBlkFile
  | started _ | missed _ => none
  | hit _ f | opened _ f | inserted _ f | touched _ f => some f

/-- The file number a call has inserted and not touched yet. -/
def pendingTouch : CacheCall → Option UInt32
  | inserted loc _ => some loc.fileId
  | _ => none

/-- How many sections a call has left at most. -/
def sectionsLeft : CacheCall → Nat
  | started _ => 5
  | missed _ => 4
  | opened _ _ => 3
  | hit _ _ | inserted _ _ => 2
  | touched _ _ => 1

theorem sectionsLeft_pos (call : CacheCall) : 0 < call.sectionsLeft := by
  cases call <;> exact Nat.succ_pos _

end CacheCall

namespace CacheThread

def pendingTouch (t : CacheThread) : Option UInt32 := t.call.bind CacheCall.pendingTouch

/-- The file of the call is the one asked for. -/
def Sound (dir : BlocksDir) (t : CacheThread) : Prop :=
  ∀ call f, t.call = some call → call.file = some f → openBlkFile dir call.loc.fileId = .ok f

/-- What the calls returned, and what the one in progress should return. -/
def answers (dir : BlocksDir) (t : CacheThread) : List BytesResult :=
  t.returned ++ t.call.toList.map fun call => blockBytesDirect dir call.loc

def sectionsLeft (t : CacheThread) : Nat := (t.call.map CacheCall.sectionsLeft).getD 0

end CacheThread

section Sections

variable {dir : BlocksDir} {inner : CacheInner} {call : CacheCall} {returned : List BytesResult}

/-- A section leaves the cache as it is, inserts a file, or touches a number. -/
theorem advance_cases (dir : BlocksDir) (inner : CacheInner) (call : CacheCall) :
    ((inner.advance dir call).1 = inner ∧ call.pendingTouch = none) ∨
    (∃ loc f, call = .opened loc f ∧ inner.advance dir call =
      ({ inner with map := inner.map.insert loc.fileId f }, .goesOn (.inserted loc f))) ∨
    (∃ loc f, (call = .hit loc f ∨ call = .inserted loc f) ∧
      inner.advance dir call = (inner.touch loc.fileId, .goesOn (.touched loc f))) := by
  cases call with
  | started loc =>
      left
      rw [CacheInner.advance]
      split <;> exact ⟨rfl, rfl⟩
  | hit loc f => exact .inr (.inr ⟨loc, f, .inl rfl, rfl⟩)
  | missed loc =>
      left
      rw [CacheInner.advance]
      split <;> exact ⟨rfl, rfl⟩
  | opened loc f => exact .inr (.inl ⟨loc, f, rfl, rfl⟩)
  | inserted loc f => exact .inr (.inr ⟨loc, f, .inr rfl, rfl⟩)
  | touched loc f => exact .inl ⟨rfl, rfl⟩

theorem advance_lru_nodup (h : inner.lru.Nodup) : (inner.advance dir call).1.lru.Nodup := by
  rcases advance_cases dir inner call with ⟨hinner, -⟩ | ⟨loc, f, -, hstep⟩ | ⟨loc, f, -, hstep⟩
  · rw [hinner]
    exact h
  · rw [hstep]
    exact h
  · rw [hstep, touch_lru]
    exact Lru.nodup_touch h

theorem advance_lru_le (h : inner.lru.length ≤ maxCachedFiles) :
    (inner.advance dir call).1.lru.length ≤ maxCachedFiles := by
  rcases advance_cases dir inner call with ⟨hinner, -⟩ | ⟨loc, f, -, hstep⟩ | ⟨loc, f, -, hstep⟩
  · rw [hinner]
    exact h
  · rw [hstep]
    exact h
  · rw [hstep, touch_lru]
    exact Lru.length_touch_le

/-- What a section lists: resident files stay in the list, or a call is about to touch them,
this one or one of the `others`. -/
theorem advance_listed (others : UInt32 → Prop)
    (h : ∀ b f, inner.map.lookup b = some f →
      b ∈ inner.lru ∨ call.pendingTouch = some b ∨ others b)
    (b : UInt32) (f : MappedBlkFile)
    (hf : (inner.advance dir call).1.map.lookup b = some f) :
    b ∈ (inner.advance dir call).1.lru ∨
      (CacheThread.resume ⟨some call, returned⟩ (inner.advance dir call).2).pendingTouch = some b ∨
      others b := by
  rcases advance_cases dir inner call with
    ⟨hinner, hnone⟩ | ⟨loc, g, hcall, hstep⟩ | ⟨loc, g, hcall, hstep⟩
  · rw [hinner] at hf ⊢
    rcases h b f hf with hlisted | hpending | hothers
    · exact .inl hlisted
    · rw [hnone] at hpending
      cases hpending
    · exact .inr (.inr hothers)
  · rw [hstep] at hf ⊢
    by_cases hb : b = loc.fileId
    · right
      left
      rw [hb]
      rfl
    · rw [AList.lookup_insert_ne hb] at hf
      rcases h b f hf with hlisted | hpending | hothers
      · exact .inl hlisted
      · rw [hcall] at hpending
        cases hpending
      · exact .inr (.inr hothers)
  · rw [hstep] at hf ⊢
    have hpending : call.pendingTouch = some b → b = loc.fileId := by
      rintro hb
      rcases hcall with rfl | rfl
      · cases hb
      · exact (Option.some.inj hb).symm
    rcases h b f (lookup_of_touch hf) with hlisted | htouch | hothers
    · exact .inl (mem_lru_touch hf (.inl hlisted))
    · exact .inl (mem_lru_touch hf (.inr (hpending htouch)))
    · exact .inr (.inr hothers)

/-- Every cached file is the one its number names. -/
theorem advance_cached
    (h : ∀ b f, inner.map.lookup b = some f → openBlkFile dir b = .ok f)
    (hsound : CacheThread.Sound dir ⟨some call, returned⟩) (b : UInt32) (f : MappedBlkFile)
    (hf : (inner.advance dir call).1.map.lookup b = some f) : openBlkFile dir b = .ok f := by
  rcases advance_cases dir inner call with
    ⟨hinner, -⟩ | ⟨loc, g, hcall, hstep⟩ | ⟨loc, g, -, hstep⟩
  · rw [hinner] at hf
    exact h b f hf
  · rw [hstep] at hf
    by_cases hb : b = loc.fileId
    · rw [hb, AList.lookup_insert] at hf
      rw [hb, ← Option.some.inj hf]
      subst hcall
      exact hsound (.opened loc g) g rfl rfl
    · rw [AList.lookup_insert_ne hb] at hf
      exact h b f hf
  · rw [hstep] at hf
    exact h b f (lookup_of_touch hf)

/-- The call holds the right file after the section too. -/
theorem advance_sound
    (hcached : ∀ b f, inner.map.lookup b = some f → openBlkFile dir b = .ok f)
    (hsound : CacheThread.Sound dir ⟨some call, returned⟩) :
    (CacheThread.resume ⟨some call, returned⟩ (inner.advance dir call).2).Sound dir := by
  intro call' f hcall' hf
  cases call with
  | started loc =>
      rw [CacheInner.advance] at hcall'
      split at hcall'
      case h_1 g hg =>
        cases hcall'
        cases hf
        exact hcached _ _ hg
      case h_2 =>
        cases hcall'
        cases hf
  | missed loc =>
      rw [CacheInner.advance] at hcall'
      split at hcall'
      case h_1 => cases hcall'
      case h_2 g hg =>
        cases hcall'
        cases hf
        exact hg
  | hit loc g =>
      cases hcall'
      exact hsound (.hit loc g) f rfl hf
  | opened loc g =>
      cases hcall'
      exact hsound (.opened loc g) f rfl hf
  | inserted loc g =>
      cases hcall'
      exact hsound (.inserted loc g) f rfl hf
  | touched loc g => cases hcall'

theorem blockBytesDirect_of_open {loc : BlockLocation} {f : MappedBlkFile}
    (h : openBlkFile dir loc.fileId = .ok f) : blockBytesDirect dir loc = f.blockBytes loc := by
  rw [blockBytesDirect, h]

/-- A section changes no answer: a call that returns returns what it should. -/
theorem advance_answers (hsound : CacheThread.Sound dir ⟨some call, returned⟩) :
    (CacheThread.resume ⟨some call, returned⟩ (inner.advance dir call).2).answers dir =
      CacheThread.answers dir ⟨some call, returned⟩ := by
  cases call with
  | started loc =>
      rw [CacheInner.advance]
      split <;> rfl
  | missed loc =>
      rw [CacheInner.advance]
      split
      case h_1 e he =>
        simp [CacheThread.answers, CacheThread.resume, CacheCall.loc, blockBytesDirect, he]
      case h_2 => rfl
  | hit loc f => rfl
  | opened loc f => rfl
  | inserted loc f => rfl
  | touched loc f =>
      have hopen : openBlkFile dir loc.fileId = .ok f := hsound (.touched loc f) f rfl rfl
      simp [CacheInner.advance, CacheThread.answers, CacheThread.resume, CacheCall.loc,
        blockBytesDirect_of_open hopen]

theorem advance_sectionsLeft :
    (CacheThread.resume ⟨some call, returned⟩ (inner.advance dir call).2).sectionsLeft <
      call.sectionsLeft := by
  cases call with
  | started loc =>
      rw [CacheInner.advance]
      split <;> simp [CacheThread.resume, CacheThread.sectionsLeft, CacheCall.sectionsLeft]
  | missed loc =>
      rw [CacheInner.advance]
      split <;> simp [CacheThread.resume, CacheThread.sectionsLeft, CacheCall.sectionsLeft]
  | hit loc f | opened loc f | inserted loc f | touched loc f =>
      simp [CacheInner.advance, CacheThread.resume, CacheThread.sectionsLeft,
        CacheCall.sectionsLeft]

end Sections

/-! ## The invariant -/

/-- The invariant linking the list and the map. -/
structure CacheInv (dir : BlocksDir) (s : SharedCache) : Prop where
  lru_nodup : s.inner.lru.Nodup
  lru_le : s.inner.lru.length ≤ maxCachedFiles
  /-- A resident file is listed, or a call is about to touch it. -/
  listed : ∀ b f, s.inner.map.lookup b = some f →
    b ∈ s.inner.lru ∨ ∃ (j : Nat) (t : CacheThread),
      s.threads[j]? = some t ∧ t.pendingTouch = some b
  cached : ∀ b f, s.inner.map.lookup b = some f → openBlkFile dir b = .ok f
  sound : ∀ t ∈ s.threads, t.Sound dir

/-- Of the threads after one is replaced, the replacement or another has the property. -/
theorem exists_getElem?_set {α : Type} {l : List α} {i : Nat} {x y : α} {P : α → Prop}
    (hi : l[i]? = some y) :
    (∃ (j : Nat) (t : α), (l.set i x)[j]? = some t ∧ P t) ↔
      P x ∨ ∃ (j : Nat) (t : α), j ≠ i ∧ l[j]? = some t ∧ P t := by
  have hlt : i < l.length := (List.getElem?_eq_some_iff.mp hi).1
  constructor
  · rintro ⟨j, t, hj, ht⟩
    by_cases hij : i = j
    · rw [← hij, List.getElem?_set_self hlt] at hj
      rw [Option.some.inj hj]
      exact .inl ht
    · rw [List.getElem?_set_ne hij] at hj
      exact .inr ⟨j, t, Ne.symm hij, hj, ht⟩
  · rintro (hx | ⟨j, t, hij, hj, ht⟩)
    · exact ⟨i, x, List.getElem?_set_self hlt, hx⟩
    · exact ⟨j, t, by rwa [List.getElem?_set_ne (Ne.symm hij)], ht⟩

namespace SharedCache

variable {dir : BlocksDir} {s s' : SharedCache} {turn : CacheTurn} {turns : List CacheTurn}

/-- A thread other than `i` has inserted file `b` and not touched it yet. -/
def OthersPending (s : SharedCache) (i : Nat) (b : UInt32) : Prop :=
  ∃ (j : Nat) (t : CacheThread), j ≠ i ∧ s.threads[j]? = some t ∧ t.pendingTouch = some b

/-- Everything a turn can do. -/
theorem step_cases (h : s.step dir turn = some s') :
    (∃ i loc returned, turn = .call i loc ∧ s.threads[i]? = some ⟨none, returned⟩ ∧
      s' = { s with threads := s.threads.set i ⟨some (.started loc), returned⟩ }) ∨
    (∃ i call returned, turn = .advance i ∧ s.threads[i]? = some ⟨some call, returned⟩ ∧
      s' = ⟨(s.inner.advance dir call).1, s.threads.set i
        (CacheThread.resume ⟨some call, returned⟩ (s.inner.advance dir call).2)⟩) := by
  cases turn with
  | call i loc =>
      rw [step] at h
      split at h
      case h_1 returned hi => exact .inl ⟨i, loc, returned, rfl, hi, (Option.some.inj h).symm⟩
      case h_2 => cases h
  | advance i =>
      rw [step] at h
      split at h
      case h_1 call returned hi =>
        exact .inr ⟨i, call, returned, rfl, hi, (Option.some.inj h).symm⟩
      case h_2 => cases h

theorem inv_initial (dir : BlocksDir) (threads : Nat) : CacheInv dir (initial threads) where
  lru_nodup := List.nodup_nil
  lru_le := Nat.zero_le _
  listed := by
    intro b f h
    cases h
  cached := by
    intro b f h
    cases h
  sound := by
    intro t ht call f hcall
    rw [List.eq_of_mem_replicate ht] at hcall
    cases hcall

/-- Resident files, seen from one thread: listed, or about to be touched by it or by another. -/
theorem listed_from (hinv : CacheInv dir s) {i : Nat} {t : CacheThread}
    (hi : s.threads[i]? = some t) (b : UInt32) (f : MappedBlkFile)
    (hf : s.inner.map.lookup b = some f) :
    b ∈ s.inner.lru ∨ t.pendingTouch = some b ∨ s.OthersPending i b := by
  rcases hinv.listed b f hf with hlisted | ⟨j, u, hj, hu⟩
  · exact .inl hlisted
  · by_cases hij : j = i
    · rw [hij, hi] at hj
      rw [Option.some.inj hj]
      exact .inr (.inl hu)
    · exact .inr (.inr ⟨j, u, hij, hj, hu⟩)

theorem inv_step (hinv : CacheInv dir s) (h : s.step dir turn = some s') : CacheInv dir s' := by
  rcases step_cases h with ⟨i, loc, returned, -, hi, rfl⟩ | ⟨i, call, returned, -, hi, rfl⟩
  · refine ⟨hinv.lru_nodup, hinv.lru_le, ?_, hinv.cached, ?_⟩
    · intro b f hf
      rw [exists_getElem?_set hi]
      rcases listed_from hinv hi b f hf with hlisted | hself | hothers
      · exact .inl hlisted
      · cases hself
      · exact .inr (.inr hothers)
    · intro t ht
      rcases List.mem_or_eq_of_mem_set ht with hold | rfl
      · exact hinv.sound t hold
      · intro call f hcall hf
        cases hcall
        cases hf
  · have hsound : CacheThread.Sound dir ⟨some call, returned⟩ :=
      hinv.sound _ (List.mem_of_getElem? hi)
    refine ⟨advance_lru_nodup hinv.lru_nodup, advance_lru_le hinv.lru_le, ?_,
      advance_cached hinv.cached hsound, ?_⟩
    · intro b f hf
      rw [exists_getElem?_set hi]
      exact advance_listed (s.OthersPending i) (listed_from hinv hi) b f hf
    · intro t ht
      rcases List.mem_or_eq_of_mem_set ht with hold | rfl
      · exact hinv.sound t hold
      · exact advance_sound hinv.cached hsound

theorem run_cons : s.run dir (turn :: turns) = s.step dir turn >>= fun s => s.run dir turns :=
  List.foldlM_cons

theorem inv_run (hinv : CacheInv dir s) (h : s.run dir turns = some s') : CacheInv dir s' := by
  induction turns generalizing s with
  | nil =>
      cases h
      exact hinv
  | cons turn turns ih =>
      rw [run_cons, Option.bind_eq_bind, Option.bind_eq_some_iff] at h
      obtain ⟨mid, hstep, hrest⟩ := h
      exact ih (inv_step hinv hstep) hrest

/-! ## The bound -/

/-- The file numbers inserted and not touched yet. -/
def pendingTouches (s : SharedCache) : List UInt32 := s.threads.filterMap CacheThread.pendingTouch

theorem length_pendingTouches_le (s : SharedCache) :
    s.pendingTouches.length ≤ s.callsInProgress := by
  rw [pendingTouches, List.length_filterMap_eq_countP]
  apply List.countP_mono_left
  intro t _ ht
  cases hcall : t.call with
  | none =>
      rw [CacheThread.pendingTouch, hcall] at ht
      cases ht
  | some call => rfl

theorem keys_subset (hinv : CacheInv dir s) :
    s.inner.map.keys ⊆ s.inner.lru ++ s.pendingTouches := by
  intro b hb
  rw [← AList.mem_keys, ← AList.lookup_isSome, Option.isSome_iff_exists] at hb
  obtain ⟨f, hf⟩ := hb
  rw [List.mem_append]
  rcases hinv.listed b f hf with hlisted | ⟨j, t, hj, ht⟩
  · exact .inl hlisted
  · exact .inr (List.mem_filterMap.mpr ⟨t, List.mem_of_getElem? hj, ht⟩)

theorem resident_le (hinv : CacheInv dir s) :
    s.resident ≤ maxCachedFiles + s.callsInProgress := by
  calc s.resident
      ≤ (s.inner.lru ++ s.pendingTouches).length :=
        (List.subperm_of_subset (AList.keys_nodup s.inner.map) (keys_subset hinv)).length_le
    _ = s.inner.lru.length + s.pendingTouches.length := List.length_append
    _ ≤ maxCachedFiles + s.callsInProgress :=
        Nat.add_le_add hinv.lru_le s.length_pendingTouches_le

/-- With no call in progress the list has every resident file, once. -/
theorem count_lru_of_idle (hinv : CacheInv dir s) (hidle : s.callsInProgress = 0) {b : UInt32}
    (hb : b ∈ s.inner.map.keys) : s.inner.lru.count b = 1 := by
  have hnone : s.pendingTouches = [] :=
    List.length_eq_zero_iff.mp (Nat.le_zero.mp (hidle ▸ s.length_pendingTouches_le))
  have hmem : b ∈ s.inner.lru := by
    have := keys_subset hinv hb
    rwa [hnone, List.append_nil] at this
  exact List.count_eq_one_of_mem hinv.lru_nodup hmem

/-! ## The answers -/

theorem asked_cons (j : Nat) (turn : CacheTurn) (turns : List CacheTurn) :
    asked j (turn :: turns) = asked j [turn] ++ asked j turns :=
  @List.filterMap_append _ _ [turn] turns (CacheTurn.asks j)

theorem sections_cons (j : Nat) (turn : CacheTurn) (turns : List CacheTurn) :
    sections j (turn :: turns) = sections j [turn] + sections j turns :=
  @List.countP_append _ (CacheTurn.advances j) [turn] turns

section Turn

variable {i j : Nat} {loc : BlockLocation}

@[simp] theorem asked_advance : asked j [.advance i] = [] := rfl

@[simp] theorem asked_call : asked i [.call i loc] = [loc] := by
  simp [asked, CacheTurn.asks]

theorem asked_call_ne (h : i ≠ j) : asked j [.call i loc] = [] := by
  simp [asked, CacheTurn.asks, h]

@[simp] theorem sections_call : sections j [.call i loc] = 0 := rfl

@[simp] theorem sections_advance : sections i [.advance i] = 1 := by
  simp [sections, CacheTurn.advances]

theorem sections_advance_ne (h : i ≠ j) : sections j [.advance i] = 0 := by
  simp [sections, CacheTurn.advances, h]

end Turn

/-- A turn adds to a thread's answers what the thread asks for in it. -/
theorem thread_step (hinv : CacheInv dir s) (h : s.step dir turn = some s') {j : Nat}
    {t' : CacheThread} (hj : s'.threads[j]? = some t') :
    ∃ t, s.threads[j]? = some t ∧
      t'.answers dir = t.answers dir ++ (asked j [turn]).map (blockBytesDirect dir) ∧
      t'.sectionsLeft + sections j [turn] ≤ t.sectionsLeft + 5 * (asked j [turn]).length := by
  rcases step_cases h with ⟨i, loc, returned, rfl, hi, rfl⟩ | ⟨i, call, returned, rfl, hi, rfl⟩
  · by_cases hij : i = j
    · subst hij
      rw [List.getElem?_set_self (List.getElem?_eq_some_iff.mp hi).1] at hj
      cases hj
      refine ⟨_, hi, ?_, ?_⟩
      · simp [CacheThread.answers, CacheCall.loc]
      · simp [CacheThread.sectionsLeft, CacheCall.sectionsLeft]
    · rw [List.getElem?_set_ne hij] at hj
      exact ⟨t', hj, by simp [asked_call_ne hij], by simp⟩
  · by_cases hij : i = j
    · subst hij
      rw [List.getElem?_set_self (List.getElem?_eq_some_iff.mp hi).1] at hj
      cases hj
      refine ⟨_, hi, ?_, ?_⟩
      · rw [advance_answers (hinv.sound _ (List.mem_of_getElem? hi))]
        simp
      · rw [sections_advance]
        exact advance_sectionsLeft
    · rw [List.getElem?_set_ne hij] at hj
      exact ⟨t', hj, by simp, by simp [sections_advance_ne hij]⟩

/-- What a run has added to a thread's answers, and the sections it took. -/
theorem thread_run (hinv : CacheInv dir s) (h : s.run dir turns = some s') {j : Nat}
    {t' : CacheThread} (hj : s'.threads[j]? = some t') :
    ∃ t, s.threads[j]? = some t ∧
      t'.answers dir = t.answers dir ++ (asked j turns).map (blockBytesDirect dir) ∧
      t'.sectionsLeft + sections j turns ≤ t.sectionsLeft + 5 * (asked j turns).length := by
  induction turns generalizing s with
  | nil =>
      cases h
      exact ⟨t', hj, (List.append_nil _).symm, le_refl _⟩
  | cons turn turns ih =>
      rw [run_cons, Option.bind_eq_bind, Option.bind_eq_some_iff] at h
      obtain ⟨mid, hstep, hrest⟩ := h
      obtain ⟨u, hu, huAnswers, huLeft⟩ := ih (inv_step hinv hstep) hrest
      obtain ⟨t, ht, htAnswers, htLeft⟩ := thread_step hinv hstep hu
      refine ⟨t, ht, ?_, ?_⟩
      · rw [huAnswers, htAnswers, asked_cons j turn turns, List.map_append, List.append_assoc]
      · rw [asked_cons j turn turns, sections_cons j turn turns, List.length_append]
        omega

/-- A call in progress can always run its next section. -/
theorem advance_enabled {j : Nat} {t : CacheThread} (hj : s.threads[j]? = some t)
    (hcall : t.call.isSome) : (s.step dir (.advance j)).isSome := by
  obtain ⟨call, hcall⟩ := Option.isSome_iff_exists.mp hcall
  obtain ⟨_, returned⟩ := t
  cases hcall
  rw [step, hj]
  rfl

theorem sharedCache_bounded {threads : Nat}
    (h : (initial threads).run dir turns = some s) :
    s.resident ≤ maxCachedFiles + s.callsInProgress ∧
    (s.callsInProgress = 0 → s.resident ≤ maxCachedFiles ∧
      ∀ b ∈ s.inner.map.keys, s.inner.lru.count b = 1) ∧
    ∀ j t, s.threads[j]? = some t →
      t.returned = ((asked j turns).take t.returned.length).map (blockBytesDirect dir) ∧
      (asked j turns).length = t.returned.length + t.call.toList.length ∧
      (t.call.isSome → (s.step dir (.advance j)).isSome ∧
        sections j turns < 5 * (asked j turns).length) := by
  have hinv : CacheInv dir s := inv_run (inv_initial dir threads) h
  refine ⟨resident_le hinv, ?_, ?_⟩
  · intro hidle
    refine ⟨?_, fun b hb => count_lru_of_idle hinv hidle hb⟩
    have hbound := resident_le hinv
    rwa [hidle, Nat.add_zero] at hbound
  · intro j t hj
    obtain ⟨start, hstart, hanswers, hsections⟩ := thread_run (inv_initial dir threads) h hj
    rw [List.eq_of_mem_replicate (List.mem_of_getElem? hstart)] at hanswers hsections
    have hall : t.answers dir = (asked j turns).map (blockBytesDirect dir) := hanswers
    have htotal : t.sectionsLeft + sections j turns ≤ 5 * (asked j turns).length := by
      simpa [CacheThread.sectionsLeft] using hsections
    refine ⟨?_, ?_, ?_⟩
    · rw [List.map_take, ← hall, CacheThread.answers, List.take_left]
    · rw [← List.length_map, ← hall, CacheThread.answers, List.length_append, List.length_map]
    · intro hcall
      refine ⟨advance_enabled hj hcall, ?_⟩
      obtain ⟨call, hcall⟩ := Option.isSome_iff_exists.mp hcall
      have hleft : t.sectionsLeft = call.sectionsLeft := by
        rw [CacheThread.sectionsLeft, hcall]
        rfl
      have hpos := call.sectionsLeft_pos
      omega

/-- Two threads that both miss the same file. -/
def missTwice : List CacheTurn :=
  [.call 0 ⟨0, 0, 4⟩, .call 1 ⟨0, 0, 4⟩, .advance 0, .advance 1, .advance 1, .advance 0,
    .advance 0, .advance 1, .advance 1, .advance 0, .advance 1]

theorem sharedCache_bounded_missTwice :
    ∃ s, (initial 2).run [(blkFileName 0, some [1, 2, 3, 4])] missTwice = some s ∧
      s.resident ≤ maxCachedFiles + s.callsInProgress := by
  obtain ⟨s, hs⟩ := Option.isSome_iff_exists.mp
    (by decide : ((initial 2).run [(blkFileName 0, some [1, 2, 3, 4])] missTwice).isSome)
  exact ⟨s, hs, (sharedCache_bounded hs).1⟩

end SharedCache

end Bidx
