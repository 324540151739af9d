import Bidx.Core.Types
import Bidx.Lib.KeyValue
import Mathlib.Algebra.BigOperators.Group.List.Basic
import Mathlib.Algebra.Order.Monoid.Defs

/-!
# The header pass

`build_chain_index` scans the block records of all blk files into a map from
block hash to header, computes the cumulative work of every header it can
connect to a root (a header with a zero `prev_hash`), and walks back from the
heaviest one.

The model takes a header's work as a function `work` into an arbitrary ordered
monoid (the source's `work_from_bits` of the header's `bits`, in exact
arithmetic), and iterates its three hash maps in arbitrary orders.  The two
unbounded walks along `prev` links carry fuel; running out of it stands for a
walk that does not end.
-/

namespace Bidx

open KeyValue

/-- One block record as the reader hands it out. -/
structure BlkRecord where
  location : BlockLocation
  headerRaw : Bytes blockHeaderLen

namespace BlkRecord

def header (rec : BlkRecord) : BlockHeader := BlockHeader.parse rec.headerRaw

def hash (D : Digests) (rec : BlkRecord) : Hash32 := dsha256 D rec.headerRaw.toList

end BlkRecord

/-- The reason text of a corrupt record, with what the source prints into it. -/
inductive CorruptReason where
  | badMagic (magic : UInt32)
  | badRecordLen (len : Nat)
  | recordOverrunsFile (recordEnd fileLen : Nat)
deriving DecidableEq

inductive BlkError where
  | io
  | noFiles
  | noRecords
  | corrupt (fileId : UInt32) (offset : UInt64) (reason : CorruptReason)
deriving DecidableEq

/-- How the header pass ends when it does not return an index. -/
inductive ChainStop where
  | error (e : BlkError)
  | panic
  | outOfFuel
deriving DecidableEq

/-- A blk file as it is opened and iterated: either step can fail. -/
abbrev BlkFile := Except BlkError (List (Except BlkError BlkRecord))

/-- A file that opens and whose records all read. -/
def BlkFile.ofRecords (records : List BlkRecord) : BlkFile := .ok (records.map .ok)

structure HeaderEntry (W : Type) where
  prev : Hash32
  location : BlockLocation
  work : W

/-- `FxHashMap<Hash32, HeaderEntry>`. -/
abbrev Headers (W : Type) := AList fun _ : Hash32 => HeaderEntry W

/-- `FxHashMap<Hash32, f64>`. -/
abbrev CumWork (W : Type) := AList fun _ : Hash32 => W

structure ChainIndex where
  byHeight : List BlockLocation
  hashToHeight : AList fun _ : Hash32 => UInt32

structure ChainBuildStats where
  totalRecords : Nat
  uniqueBlocks : Nat
  orphans : Nat
  filesScanned : Nat
  tipHeight : UInt32
  tipHash : Hash32

/-- The iteration orders of one call: `headers.iter()`, `headers.keys()` and
`cum_work.iter()`. -/
structure ChainOrders (W : Type) where
  candidates : IterOrder Hash32 (HeaderEntry W)
  keys : IterOrder Hash32 (HeaderEntry W)
  works : IterOrder Hash32 W

variable {W : Type}

/-! ## Scanning -/

/-- The map and the counters of the scanning loop. -/
structure Scan (W : Type) where
  headers : Headers W
  totalRecords : Nat
  filesScanned : Nat

/-- One record: the first one seen under a hash stays. -/
def scanRecord (D : Digests) (work : BlockHeader → W) (scan : Scan W) (rec : BlkRecord) :
    Scan W :=
  { scan with
    totalRecords := scan.totalRecords + 1
    headers :=
      match scan.headers.lookup (rec.hash D) with
      | some _ => scan.headers
      | none =>
          scan.headers.insert (rec.hash D) ⟨rec.header.prevHash, rec.location, work rec.header⟩ }

/-- The records of one file; the first unreadable one ends the scan. -/
def scanRecords (D : Digests) (work : BlockHeader → W) :
    List (Except BlkError BlkRecord) → Scan W → Except ChainStop (Scan W)
  | [], scan => .ok scan
  | .error e :: _, _ => .error (.error e)
  | .ok rec :: records, scan => scanRecords D work records (scanRecord D work scan rec)

/-- All files in order. -/
def scanFiles (D : Digests) (work : BlockHeader → W) :
    List BlkFile → Scan W → Except ChainStop (Scan W)
  | [], scan => .ok scan
  | .error e :: _, _ => .error (.error e)
  | .ok records :: files, scan =>
      match scanRecords D work records { scan with filesScanned := scan.filesScanned + 1 } with
      | .ok scan => scanFiles D work files scan
      | .error stop => .error stop

/-! ## Cumulative work -/

/-- The hashes the seed pass starts from: no parent, or none we know. -/
def genesisCandidates (order : IterOrder Hash32 (HeaderEntry W)) (headers : Headers W) :
    List Hash32 :=
  ((order.list headers).filter fun e =>
    decide (e.2.prev = Hash32.zero) || (headers.lookup e.2.prev).isNone).map Sigma.fst

variable [AddMonoid W]

/-- The cumulative work below a header, where it is known. -/
def parentCum (cum : CumWork W) (entry : HeaderEntry W) : Option W :=
  if entry.prev = Hash32.zero then some 0 else cum.lookup entry.prev

/-- The seed pass from one candidate: a work stack of hashes, each marked once it
has been looked at. -/
def seedStack (headers : Headers W) : List (Hash32 × Bool) → CumWork W → CumWork W
  | [], cum => cum
  | (h, processed) :: stack, cum =>
      match headers.lookup h with
      | none => seedStack headers stack cum
      | some entry =>
          match cum.lookup h with
          | some _ => seedStack headers stack cum
          | none =>
              match processed with
              | true =>
                  seedStack headers stack
                    (cum.insert h ((parentCum cum entry).getD 0 + entry.work))
              | false =>
                  match parentCum cum entry with
                  | some _ => seedStack headers ((h, true) :: stack) cum
                  | none => seedStack headers stack cum
termination_by stack => (stack.map fun e => if e.2 then 1 else 2).sum
decreasing_by
  all_goals simp only [List.map_cons, List.sum_cons, if_true, Bool.false_eq_true, if_false]
  all_goals first | omega | (split <;> omega)

/-- The seed pass. -/
def seedCum (headers : Headers W) (candidates : List Hash32) (cum : CumWork W) : CumWork W :=
  candidates.foldl (fun cum g => seedStack headers [(g, false)] cum) cum

/-- Record the path of a finished walk, nearest node first; every node on it was
found in `headers` on the way. -/
def fillPath (headers : Headers W) : W → List Hash32 → CumWork W → Except ChainStop (CumWork W)
  | _, [], cum => .ok cum
  | acc, p :: path, cum =>
      match headers.lookup p with
      | some e => fillPath headers (acc + e.work) path (cum.insert p (acc + e.work))
      | none => .error .panic

/-- The explicit walk of `resolve_cum` from `h`, now at `cur`; `path` is what it
has passed, latest first. -/
def walkCum (headers : Headers W) (h : Hash32) :
    Nat → Hash32 → List Hash32 → CumWork W → Except ChainStop (Option W × CumWork W)
  | 0, _, _, _ => .error .outOfFuel
  | fuel + 1, cur, path, cum =>
      match cum.lookup cur with
      | some w => do
          let cum ← fillPath headers w path cum
          return (cum.lookup h, cum)
      | none =>
          match headers.lookup cur with
          | none => .ok (none, cum)
          | some e =>
              if e.prev = Hash32.zero then do
                let cum ← fillPath headers e.work path (cum.insert cur e.work)
                return (cum.lookup h, cum)
              else
                walkCum headers h fuel e.prev (cur :: path) cum

/-- `resolve_cum`. -/
def resolveCum (headers : Headers W) (fuel : Nat) (h : Hash32) (cum : CumWork W) :
    Except ChainStop (Option W × CumWork W) :=
  match cum.lookup h with
  | some w => .ok (some w, cum)
  | none =>
      match headers.lookup h with
      | none => .ok (none, cum)
      | some entry =>
          if entry.prev = Hash32.zero then
            .ok (some (0 + entry.work), cum.insert h (0 + entry.work))
          else
            walkCum headers h fuel h [] cum

/-- `resolve_cum` for every header. -/
def resolveAll (headers : Headers W) (fuel : Nat) :
    List Hash32 → CumWork W → Except ChainStop (CumWork W)
  | [], cum => .ok cum
  | h :: hashes, cum =>
      match resolveCum headers fuel h cum with
      | .ok (_, cum) => resolveAll headers fuel hashes cum
      | .error stop => .error stop

/-! ## The tip and the walk back -/

/-- One step of the scan for the tip: only a strictly heavier header replaces the
one at hand. -/
def heavier [LinearOrder W] (tip : Option (Hash32 × W)) (e : Sigma fun _ : Hash32 => W) :
    Option (Hash32 × W) :=
  match tip with
  | some (h, w) => if e.2 ≤ w then some (h, w) else some (e.1, e.2)
  | none => some (e.1, e.2)

omit [AddMonoid W] in
/-- The walk back from the tip; `chain` holds what has been walked, lowest first,
as the source has it after its final `reverse`. -/
def walkBack (headers : Headers W) :
    Nat → Hash32 → List Hash32 → Except ChainStop (List Hash32)
  | 0, _, _ => .error .outOfFuel
  | fuel + 1, cur, chain =>
      match headers.lookup cur with
      | none => .error .panic
      | some entry =>
          if entry.prev = Hash32.zero then
            .ok (cur :: chain)
          else
            match headers.lookup entry.prev with
            | some _ => walkBack headers fuel entry.prev (cur :: chain)
            | none => .ok (cur :: chain)

omit [AddMonoid W] in
/-- `headers[h].location` along the chain. -/
def locations (headers : Headers W) : List Hash32 → Except ChainStop (List BlockLocation)
  | [] => .ok []
  | h :: chain =>
      match headers.lookup h with
      | none => .error .panic
      | some entry => do
          let rest ← locations headers chain
          return entry.location :: rest

/-- `build_chain_index` over the files of a directory. -/
def buildChainIndex [LinearOrder W] (D : Digests) (work : BlockHeader → W)
    (orders : ChainOrders W) (fuel : Nat) (files : List BlkFile) :
    Except ChainStop (ChainIndex × ChainBuildStats) :=
  match files with
  | [] => .error (.error .noFiles)
  | _ :: _ => do
      let scan ← scanFiles D work files ⟨∅, 0, 0⟩
      let seeded := seedCum scan.headers (genesisCandidates orders.candidates scan.headers) ∅
      let cum ← resolveAll scan.headers fuel
        ((orders.keys.list scan.headers).map Sigma.fst) seeded
      match (orders.works.list cum).foldl heavier none with
      | none => .error (.error .noRecords)
      | some (tipHash, _) => do
          let chain ← walkBack scan.headers fuel tipHash []
          let byHeight ← locations scan.headers chain
          return (
            { byHeight
              hashToHeight := insertAll ∅ (chain.mapIdx fun i h => (h, UInt32.ofNat i)) },
            { totalRecords := scan.totalRecords
              uniqueBlocks := scan.headers.keys.length
              orphans := scan.headers.keys.length - chain.length
              filesScanned := scan.filesScanned
              tipHeight := UInt32.ofNat chain.length - 1
              tipHash })

end Bidx
