import Mathlib.Data.List.TakeWhile
import Bidx.Lib.Hex
import Bidx.Lib.ParentForest
import Bidx.Live.Chain
import Bidx.Pipeline.RunParse

/-!
# Orphaned blocks

Before a bulk parse the node is asked for its chain tips.  Every tip that is neither
active nor known by its headers alone is walked back its `branchlen`, header by
header, and the blocks met are the ones the parse then skips.

Hashes travel as display hex, the bytes reversed.  The hex crate is a parameter.
The block tree is the parent function of the blocks the node knows; a tip's branch
runs from the root to it, and its stale part is what lies above the active chain.
-/

namespace Bidx

open ParentForest

/-! ## Hashes as text -/

/-- The `hex` crate, as far as hashes use it: `encode` and `decode_to_slice`, whose
error is given by its text. -/
structure HexCrate where
  encode : List UInt8 → List Char
  decodeToSlice : List Char → Except String (Bytes 32)
  decode_encode : ∀ b : Bytes 32, decodeToSlice (encode b.toList) = .ok b

variable (H : HexCrate)

/-- `Hash32::from_hex`. -/
def Hash32.fromHex (s : List Char) : Except String Hash32 :=
  (H.decodeToSlice s).map List.Vector.reverse

/-- `Hash32::to_hex`. -/
def Hash32.toHex (hash : Hash32) : List Char := H.encode hash.reverse.toList

theorem Hash32.fromHex_toHex (hash : Hash32) : Hash32.fromHex H (hash.toHex H) = .ok hash := by
  rw [Hash32.fromHex, Hash32.toHex, H.decode_encode, Except.map]
  congr 1
  apply List.Vector.toList_injective
  rw [List.Vector.toList_reverse, List.Vector.toList_reverse, List.reverse_reverse]

/-! ## Walking the tips -/

/-- An entry of `getchaintips`. -/
structure ChainTip where
  hash : List Char
  branchLen : UInt32
  status : String

/-- The answer to `getblockheader`, as far as the walk reads it. -/
structure BlockHeaderInfo where
  previous : Option (List Char)

/-- The node's answers: `chain_tips`, and `get_block_header` by the hash sent. -/
structure TipsView where
  chainTips : Except RpcError (List ChainTip)
  blockHeader : List Char → Except RpcError BlockHeaderInfo

variable (node : TipsView)

/-- The walk back along a branch. -/
def walkBranch : Nat → Hash32 → List Hash32 → Except RpcError (List Hash32)
  | 0, _, out => .ok out
  | count + 1, curHash, out =>
      let out := out.insert curHash
      match node.blockHeader (curHash.toHex H) with
      | .error e => .error e
      | .ok hdr =>
          match hdr.previous with
          | none => .ok out
          | some prev =>
              match Hash32.fromHex H prev with
              | .error e => .error (.badResponse e)
              | .ok curHash => walkBranch count curHash out

/-- The tips the walk leaves out. -/
def ChainTip.Excluded (tip : ChainTip) : Prop :=
  tip.status = "active" ∨ tip.status = "headers-only"

instance (tip : ChainTip) : Decidable tip.Excluded := inferInstanceAs (Decidable (_ ∨ _))

/-- One tip of `orphan_block_hashes`. -/
def orphansOfTip (out : List Hash32) (tip : ChainTip) : Except RpcError (List Hash32) :=
  if tip.Excluded then
    .ok out
  else
    match Hash32.fromHex H tip.hash with
    | .error e => .error (.badResponse ("getchaintips bad hash: " ++ e))
    | .ok curHash => walkBranch H node tip.branchLen.toNat curHash out

/-- `orphan_block_hashes`. -/
def orphanBlockHashes : Except RpcError (List Hash32) :=
  match node.chainTips with
  | .error e => .error e
  | .ok tips => tips.foldlM (orphansOfTip H node) []

/-- What `run_parse` makes of the answer: an empty set and an error leave the blocks
unfiltered. -/
def ParseConfig.withOrphans (cfg : ParseConfig) (fetched : Except RpcError (List Hash32)) :
    ParseConfig :=
  match fetched with
  | .ok set => if set = [] then cfg else { cfg with orphanBlocks := some set }
  | .error _ => cfg

/-! ## The stale part of a branch -/

/-- The blocks of a branch from its tip down to, not including, the active chain. -/
def staleBlocks (active nodes : List Hash32) : List Hash32 :=
  nodes.reverse.takeWhile fun b => b ∉ active

/-- Headers are answered from the tree. -/
def AnswersHeaders (parent : Hash32 → Option (Option Hash32)) : Prop :=
  ∀ h link, parent h = some link →
    node.blockHeader (h.toHex H) = .ok ⟨link.map fun p => p.toHex H⟩

/-- A tip that names a block of the tree, with the blocks from the root to it, and is
reported with its distance to the active chain. -/
structure ReportsBranch (parent : Hash32 → Option (Option Hash32)) (active : List Hash32)
    (tip : ChainTip) (nodes : List Hash32) : Prop where
  branch : ∃ h, tip.hash = h.toHex H ∧ Branch parent h nodes
  branchLen_eq : tip.branchLen.toNat = (staleBlocks active nodes).length

theorem toHex_injective {h h' : Hash32} (heq : h.toHex H = h'.toHex H) : h = h' := by
  have hread := Hash32.fromHex_toHex H h
  rw [heq, Hash32.fromHex_toHex] at hread
  exact (Except.ok.inj hread).symm

variable {H} in
/-- A tip is reported for one branch only. -/
theorem ReportsBranch.unique {parent : Hash32 → Option (Option Hash32)} {active : List Hash32}
    {tip : ChainTip} {nodes nodes' : List Hash32} (hr : ReportsBranch H parent active tip nodes)
    (hr' : ReportsBranch H parent active tip nodes') : nodes = nodes' := by
  obtain ⟨h, hhash, hbranch⟩ := hr.branch
  obtain ⟨h', hhash', hbranch'⟩ := hr'.branch
  obtain rfl := toHex_injective H (hhash.symm.trans hhash')
  exact hbranch.unique hbranch'

theorem notMem_active_of_stale {active nodes : List Hash32} {b : Hash32}
    (hb : b ∈ staleBlocks active nodes) : b ∉ active := by
  have hstale := List.mem_takeWhile_imp hb
  simpa using hstale

theorem staleBlocks_root (active : List Hash32) (h : Hash32) :
    staleBlocks active [h] = if h ∈ active then [] else [h] := by
  rw [staleBlocks, List.reverse_singleton, List.takeWhile_cons]
  simp

theorem staleBlocks_child (active nodes : List Hash32) (h : Hash32) :
    staleBlocks active (nodes ++ [h]) =
      if h ∈ active then [] else h :: staleBlocks active nodes := by
  rw [staleBlocks, List.reverse_append, List.reverse_singleton, List.singleton_append,
    List.takeWhile_cons]
  simp [staleBlocks]

theorem mem_foldl_insert {l out : List Hash32} {b : Hash32} :
    b ∈ l.foldl (fun out b => out.insert b) out ↔ b ∈ l ∨ b ∈ out := by
  induction l generalizing out with
  | nil => simp
  | cons a l ih =>
      rw [List.foldl_cons, ih, List.mem_insert_iff, List.mem_cons]
      tauto

section Walk

variable {H node} {parent : Hash32 → Option (Option Hash32)} {active : List Hash32}

/-- Walking a branch back over its distance collects its stale part.  At a root the
walk ends by itself, and nothing of the branch is left. -/
theorem walkBranch_of_branch (hheaders : AnswersHeaders H node parent) {h : Hash32}
    {nodes : List Hash32} (hbranch : Branch parent h nodes) (out : List Hash32) :
    walkBranch H node (staleBlocks active nodes).length h out =
      .ok ((staleBlocks active nodes).foldl (fun out b => out.insert b) out) := by
  induction hbranch generalizing out with
  | @root h hroot =>
      rw [staleBlocks_root]
      by_cases hmem : h ∈ active
      · rw [if_pos hmem]
        rfl
      · rw [if_neg hmem, List.length_singleton, walkBranch, hheaders h none hroot]
        rfl
  | @child h p nodes hlink hparent ih =>
      rw [staleBlocks_child]
      by_cases hmem : h ∈ active
      · rw [if_pos hmem]
        rfl
      · rw [if_neg hmem, List.length_cons, walkBranch, hheaders h (some p) hlink]
        simp only [Option.map_some, Hash32.fromHex_toHex]
        exact ih _

theorem orphansOfTip_eq (hheaders : AnswersHeaders H node parent) {tip : ChainTip}
    {nodes : List Hash32} (hreports : ReportsBranch H parent active tip nodes)
    (out : List Hash32) :
    orphansOfTip H node out tip =
      .ok (if tip.Excluded then out
        else (staleBlocks active nodes).foldl (fun out b => out.insert b) out) := by
  obtain ⟨h, hhash, hbranch⟩ := hreports.branch
  rw [orphansOfTip]
  by_cases hexcluded : tip.Excluded
  · rw [if_pos hexcluded, if_pos hexcluded]
  · rw [if_neg hexcluded, if_neg hexcluded, hhash, Hash32.fromHex_toHex, hreports.branchLen_eq]
    exact walkBranch_of_branch hheaders hbranch out

/-- A block that some tip of the list contributes. -/
def StaleAt (H : HexCrate) (parent : Hash32 → Option (Option Hash32)) (active : List Hash32)
    (tips : List ChainTip) (b : Hash32) : Prop :=
  ∃ tip ∈ tips, ¬tip.Excluded ∧ ∃ nodes, ReportsBranch H parent active tip nodes ∧
    b ∈ staleBlocks active nodes

/-- The tips are collected one after the other. -/
theorem foldlM_orphansOfTip (hheaders : AnswersHeaders H node parent) {tips : List ChainTip}
    (hreports : ∀ tip ∈ tips, ∃ nodes, ReportsBranch H parent active tip nodes)
    (out : List Hash32) :
    ∃ set, tips.foldlM (orphansOfTip H node) out = .ok set ∧
      ∀ b, b ∈ set ↔ b ∈ out ∨ StaleAt H parent active tips b := by
  induction tips generalizing out with
  | nil => exact ⟨out, rfl, fun b => by simp [StaleAt]⟩
  | cons tip tips ih =>
      rw [List.forall_mem_cons] at hreports
      obtain ⟨nodes, hnodes⟩ := hreports.1
      obtain ⟨set, hset, hmem⟩ := ih hreports.2
        (if tip.Excluded then out
          else (staleBlocks active nodes).foldl (fun out b => out.insert b) out)
      refine ⟨set, ?_, fun b => ?_⟩
      · rw [List.foldlM_cons, orphansOfTip_eq hheaders hnodes]
        exact hset
      · have htip : b ∈ (if tip.Excluded then out
            else (staleBlocks active nodes).foldl (fun out b => out.insert b) out) ↔
            b ∈ out ∨ (¬tip.Excluded ∧ b ∈ staleBlocks active nodes) := by
          split_ifs with hexcluded
          · simp [hexcluded]
          · rw [mem_foldl_insert, or_comm]
            simp [hexcluded]
        have hbranch : (∃ nodes', ReportsBranch H parent active tip nodes' ∧
            b ∈ staleBlocks active nodes') ↔ b ∈ staleBlocks active nodes := by
          constructor
          · rintro ⟨nodes', hnodes', hb⟩
            rwa [hnodes.unique hnodes']
          · exact fun hb => ⟨nodes, hnodes, hb⟩
        rw [hmem, htip, StaleAt, StaleAt, List.exists_mem_cons_iff, hbranch, or_assoc]

end Walk

/-! ## What the parse skips -/

section Skipped

variable {W : Type} {env : ParseEnv W} {cfg : ParseConfig} {index : ChainIndex} {height : Nat}

/-- Only a block of the orphan set is skipped. -/
theorem skipped_of_parseHeight {height' : Nat}
    (h : parseHeight env cfg index height' = .ok (.skipped height)) :
    ∃ location bytes, index.byHeight[height]? = some location ∧
      env.blockBytes location = .ok bytes ∧
      blockHash env.digests bytes ∈ cfg.orphanBlocks.getD [] := by
  rw [parseHeight] at h
  cases hlocation : index.byHeight[height']? with
  | none => simp [hlocation] at h
  | some location =>
      cases hbytes : env.blockBytes location with
      | error e => simp [hlocation, hbytes] at h
      | ok bytes =>
          simp only [hlocation, hbytes, parsePayload] at h
          split_ifs at h with hlen horphan
          · obtain rfl := WorkItem.skipped.inj (Except.ok.inj h)
            exact ⟨location, bytes, hlocation, hbytes, horphan⟩
          · split at h <;> cases h

/-- The messages of a stage are those of its heights. -/
theorem exists_parseHeight_of_mem {item : WorkItem} {heights : List Nat}
    (h : item ∈ (parseStage env cfg index heights).1) :
    ∃ height ∈ heights, parseHeight env cfg index height = .ok item := by
  induction heights with
  | nil => simp [parseStage] at h
  | cons height heights ih =>
      rw [parseStage] at h
      cases hitem : parseHeight env cfg index height with
      | error stop => simp [hitem] at h
      | ok item' =>
          simp only [hitem, List.mem_cons] at h
          rcases h with rfl | hrest
          · exact ⟨height, List.mem_cons_self, hitem⟩
          · obtain ⟨height', hmem, hitem'⟩ := ih hrest
            exact ⟨height', List.mem_cons_of_mem _ hmem, hitem'⟩

theorem withOrphans_ok (hcfg : cfg.orphanBlocks = none) (set : List Hash32) :
    (cfg.withOrphans (.ok set)).orphanBlocks.getD [] = set := by
  rw [ParseConfig.withOrphans]
  by_cases hset : set = []
  · rw [if_pos hset, hcfg, hset]
    rfl
  · rw [if_neg hset]
    rfl

end Skipped

/-- No message of a stage skips a block of the active chain. -/
def SkipsNoneOf {W : Type} (env : ParseEnv W) (cfg : ParseConfig) (active : List Hash32) : Prop :=
  ∀ (index : ChainIndex) (heights : List Nat) (height : Nat),
    .skipped height ∈ (parseStage env cfg index heights).1 →
    ∃ location bytes, index.byHeight[height]? = some location ∧
      env.blockBytes location = .ok bytes ∧ blockHash env.digests bytes ∉ active

/-- The orphan set is what the walked tips have above the active chain, so that the
parse skips no active block. -/
theorem orphanBlockHashes_eq_stale {parent : Hash32 → Option (Option Hash32)}
    {active : List Hash32} (hheaders : AnswersHeaders H node parent) {tips : List ChainTip}
    (htips : node.chainTips = .ok tips)
    (hreports : ∀ tip ∈ tips, ∃ nodes, ReportsBranch H parent active tip nodes) :
    ∃ set, orphanBlockHashes H node = .ok set ∧
      (∀ b, b ∈ set ↔ StaleAt H parent active tips b) ∧
      (∀ b ∈ active, b ∉ set) ∧
      ∀ (W : Type) (env : ParseEnv W) (cfg : ParseConfig), cfg.orphanBlocks = none →
        SkipsNoneOf env (cfg.withOrphans (.ok set)) active := by
  obtain ⟨set, hset, hmem⟩ := foldlM_orphansOfTip hheaders hreports []
  have hstale : ∀ b, b ∈ set ↔ StaleAt H parent active tips b := by
    intro b
    rw [hmem b, or_iff_right List.not_mem_nil]
  have hkept : ∀ b ∈ active, b ∉ set := by
    intro b hb hin
    obtain ⟨-, -, -, nodes, -, hnodes⟩ := (hstale b).mp hin
    exact notMem_active_of_stale hnodes hb
  refine ⟨set, by rw [orphanBlockHashes, htips]; exact hset, hstale, hkept, ?_⟩
  intro W env cfg hcfg index heights height hskipped
  obtain ⟨_, -, hitem⟩ := exists_parseHeight_of_mem hskipped
  obtain ⟨location, bytes, hlocation, hbytes, hin⟩ := skipped_of_parseHeight hitem
  rw [withOrphans_ok hcfg] at hin
  exact ⟨location, bytes, hlocation, hbytes, fun hb => hkept _ hb hin⟩

/-! A node that answers from a tree, and a tree with two children of its root. -/

/-- Hex as the crate writes and reads it. -/
def lowerHex : HexCrate where
  encode := Hex.encode
  decodeToSlice s :=
    match Hex.decode s with
    | some bs => if h : bs.length = 32 then .ok ⟨bs, h⟩ else .error "Invalid string length"
    | none => .error "Invalid character"
  decode_encode b := by
    simp only [Hex.decode_encode]
    exact dif_pos b.toList_length

/-- The answers from a tree. -/
def TipsView.ofTree (parent : Hash32 → Option (Option Hash32)) (tips : List ChainTip) :
    TipsView where
  chainTips := .ok tips
  blockHeader s :=
    match Hash32.fromHex H s with
    | .error e => .error (.rpc (-8) e)
    | .ok h =>
        match parent h with
        | none => .error (.rpc (-5) "Block not found")
        | some link => .ok ⟨link.map fun p => p.toHex H⟩

theorem answersHeaders_ofTree (parent : Hash32 → Option (Option Hash32)) (tips : List ChainTip) :
    AnswersHeaders H (TipsView.ofTree H parent tips) parent := by
  intro h link hlink
  simp only [TipsView.ofTree, Hash32.fromHex_toHex, hlink]

def forkBlock (n : Nat) : Hash32 := wordBytes 32 n

/-- Blocks 2 and 3 on block 1. -/
def forkParent (h : Hash32) : Option (Option Hash32) :=
  if h = forkBlock 1 then some none
  else if h = forkBlock 2 ∨ h = forkBlock 3 then some (some (forkBlock 1))
  else none

def forkTips : List ChainTip := [
  ⟨(forkBlock 2).toHex lowerHex, 0, "active"⟩,
  ⟨(forkBlock 3).toHex lowerHex, 1, "valid-fork"⟩]

theorem branch_forkParent {n : Nat}
    (h : forkParent (forkBlock n) = some (some (forkBlock 1))) :
    Branch forkParent (forkBlock n) [forkBlock 1, forkBlock n] :=
  .child h (.root (by decide))

theorem orphanBlockHashes_fork :
    ∃ set, orphanBlockHashes lowerHex (TipsView.ofTree lowerHex forkParent forkTips) = .ok set ∧
      ∀ b, b ∈ set ↔
        StaleAt lowerHex forkParent [forkBlock 1, forkBlock 2] forkTips b := by
  have hreports : ∀ tip ∈ forkTips, ∃ nodes,
      ReportsBranch lowerHex forkParent [forkBlock 1, forkBlock 2] tip nodes := by
    rw [forkTips, List.forall_mem_cons, List.forall_mem_singleton]
    exact ⟨⟨_, ⟨_, rfl, branch_forkParent (by decide)⟩, by decide⟩,
      ⟨_, ⟨_, rfl, branch_forkParent (by decide)⟩, by decide⟩⟩
  obtain ⟨set, hset, hmem, -⟩ := orphanBlockHashes_eq_stale lowerHex _
    (answersHeaders_ofTree lowerHex forkParent forkTips) rfl hreports
  exact ⟨set, hset, hmem⟩

end Bidx
