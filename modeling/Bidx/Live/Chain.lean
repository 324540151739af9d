import Bidx.Live.Tracker
import Bidx.Parser.Wire
import Bidx.Store.BlockEffect

/-!
# Chains of raw blocks

A chain is the list of its raw blocks by height.  `replay` is the UTXO table that
applying its blocks in height order leaves, `ValidChain` what a node's best chain
satisfies as far as the indexer can see it, and `Serves` the answers of a node
that has this chain.

One thing about mainnet's own chain is left out: its blocks 91842 and 91880 create outpoints
that earlier blocks had created and nothing had spent, and `ValidOver.fresh` excludes that.
-/

namespace Bidx

open KeyValue

/-- The bytes of a block. -/
abbrev RawBlock := List UInt8

/-- The 80 header bytes. -/
def headerOf (raw : RawBlock) : Bytes blockHeaderLen := LittleEndian.arrayAt blockHeaderLen raw 0

def blockHash (D : Digests) (raw : RawBlock) : Hash32 := dsha256 D (headerOf raw).toList

def prevHash (raw : RawBlock) : Hash32 := (BlockHeader.parse (headerOf raw)).prevHash

/-- `parse_block_full` on a block at a height. -/
def parseAt (D : Digests) (raw : RawBlock) (height : Nat) : Except TxParseError FullBlock :=
  parseBlockFull D raw (UInt32.ofNat height) (blockHash D raw) (BlockHeader.parse (headerOf raw))

/-- The tip record of a block. -/
def tipOf (D : Digests) (height : Nat) (raw : RawBlock) : TipState :=
  ⟨UInt32.ofNat height, blockHash D raw⟩

theorem parseAt_shape {D : Digests} {raw : RawBlock} {height : Nat} {block : FullBlock}
    (h : parseAt D raw height = .ok block) : block.WellShaped := (parseBlockFull_shape h).1

theorem parseHeader_of_parseAt {D : Digests} {raw : RawBlock} {height : Nat} {block : FullBlock}
    (h : parseAt D raw height = .ok block) :
    Tracker.parseHeader raw = .ok (BlockHeader.parse (headerOf raw), headerOf raw) := by
  have hlen := (parseBlockFull_shape h).2.2.2
  rw [Tracker.parseHeader, if_neg (by omega)]
  rfl

/-! ## Replay -/

/-- The table after one raw block. -/
def tableStep (D : Digests) (height : Nat) (raw : RawBlock) (S : Table) : Table :=
  match parseAt D raw height with
  | .ok block => tableAfter (UInt32.ofNat height) block S
  | .error _ => S

/-- Apply blocks from `height` on. -/
def replayFrom (D : Digests) : Nat → Table → List RawBlock → Table
  | _, S, [] => S
  | height, S, raw :: chain => replayFrom D (height + 1) (tableStep D height raw S) chain

/-- The UTXO table of a chain. -/
def replay (D : Digests) (chain : List RawBlock) : Table := replayFrom D 0 (fun _ => none) chain

/-- The undo record `apply_block` writes for the block at a height of the chain. -/
def undoRecord (D : Digests) (chain : List RawBlock) (height : Nat) : Option (List UInt8) :=
  match chain[height]? with
  | some raw =>
      match parseAt D raw height with
      | .ok block => undoAfter (UInt32.ofNat height) block (replay D (chain.take height))
      | .error _ => none
  | none => none

section Replay

variable {D : Digests} {chain : List RawBlock} {raw : RawBlock} {height : Nat} {S : Table}
  {block : FullBlock}

theorem tableStep_of_parse (h : parseAt D raw height = .ok block) (S : Table) :
    tableStep D height raw S = tableAfter (UInt32.ofNat height) block S := by
  rw [tableStep, h]

theorem replayFrom_append (D : Digests) (height : Nat) (S : Table)
    (chain chain' : List RawBlock) :
    replayFrom D height S (chain ++ chain') =
      replayFrom D (height + chain.length) (replayFrom D height S chain) chain' := by
  induction chain generalizing height S with
  | nil => rfl
  | cons raw chain ih =>
      rw [List.cons_append, replayFrom, replayFrom, ih, List.length_cons]
      congr 1
      omega

theorem replay_take_succ (D : Digests) (h : chain[height]? = some raw) :
    replay D (chain.take (height + 1)) = tableStep D height raw (replay D (chain.take height)) := by
  have hlt : height < chain.length := (List.getElem?_eq_some_iff.mp h).1
  rw [List.take_add_one, h, Option.toList_some, replay, replayFrom_append, List.length_take,
    Nat.min_eq_left (by omega), Nat.zero_add]
  rfl

end Replay

/-! ## Chains with a common beginning -/

section Common

variable {D : Digests} {A B : List RawBlock} {m n : Nat}

theorem take_eq_of_le (h : A.take n = B.take n) (hle : m ≤ n) : A.take m = B.take m := by
  have hcut := congrArg (List.take m) h
  rwa [List.take_take, List.take_take, Nat.min_eq_left hle] at hcut

theorem getElem?_eq_of_take_eq (h : A.take n = B.take n) (hlt : m < n) : A[m]? = B[m]? := by
  rw [← List.getElem?_take_of_lt hlt, h, List.getElem?_take_of_lt hlt]

theorem undoRecord_of_take_eq (htake : A.take (n + 1) = B.take (n + 1)) :
    undoRecord D A n = undoRecord D B n := by
  have hget : A[n]? = B[n]? := getElem?_eq_of_take_eq htake (Nat.lt_succ_self n)
  have hbelow : A.take n = B.take n := take_eq_of_le htake (Nat.le_succ n)
  rw [undoRecord, undoRecord, hget, hbelow]

end Common

/-! ## Valid chains -/

/-- What a valid chain satisfies: every block parses and is valid over the table
of the blocks before it, which includes that it creates no outpoint that is still there;
hashes are not zero, and headers name their parents. -/
structure ValidChain (D : Digests) (chain : List RawBlock) : Prop where
  length_lt : chain.length < 2 ^ 32
  valid : ∀ (height : Nat) (raw : RawBlock), chain[height]? = some raw →
    ∃ block, parseAt D raw height = .ok block ∧ ValidOver (replay D (chain.take height)) block
  hash_ne_zero : ∀ raw ∈ chain, blockHash D raw ≠ Hash32.zero
  root : ∀ raw, chain[0]? = some raw → prevHash raw = Hash32.zero
  linked : ∀ (height : Nat) (raw next : RawBlock), chain[height]? = some raw →
    chain[height + 1]? = some next → prevHash next = blockHash D raw

/-- Parsing and validity of the block at one height, as a test. -/
def validAt (D : Digests) (chain : List RawBlock) (height : Nat) (raw : RawBlock) : Bool :=
  match parseAt D raw height with
  | .ok block => decide (ValidOver (replay D (chain.take height)) block)
  | .error _ => false

instance (D : Digests) (chain : List RawBlock) : Decidable (ValidChain D chain) :=
  decidable_of_iff (chain.length < 2 ^ 32 ∧
      (∀ height : Fin chain.length, validAt D chain height (chain.get height) = true) ∧
      (∀ raw ∈ chain, blockHash D raw ≠ Hash32.zero) ∧
      (∀ raw ∈ chain[0]?, prevHash raw = Hash32.zero) ∧
      ∀ height : Fin chain.length, ∀ next ∈ chain[height.val + 1]?,
        prevHash next = blockHash D (chain.get height)) <| by
    constructor
    · rintro ⟨hlen, hvalid, hzero, hroot, hlinked⟩
      refine ⟨hlen, ?_, hzero, hroot, ?_⟩
      · intro height raw hraw
        obtain ⟨hlt, rfl⟩ := List.getElem?_eq_some_iff.mp hraw
        have htest := hvalid ⟨height, hlt⟩
        unfold validAt at htest
        split at htest
        · rename_i block hparse
          exact ⟨block, hparse, of_decide_eq_true htest⟩
        · contradiction
      · intro height raw next hraw hnext
        obtain ⟨hlt, rfl⟩ := List.getElem?_eq_some_iff.mp hraw
        exact hlinked ⟨height, hlt⟩ next hnext
    · rintro ⟨hlen, hvalid, hzero, hroot, hlinked⟩
      refine ⟨hlen, ?_, hzero, hroot, ?_⟩
      · intro height
        obtain ⟨block, hparse, hover⟩ := hvalid height (chain.get height) (by simp)
        rw [validAt, hparse]
        exact decide_eq_true hover
      · intro height next hnext
        exact hlinked height (chain.get height) next (by simp) hnext

section Valid

variable {D : Digests} {chain : List RawBlock}

theorem Table.decodes_empty : Table.Decodes fun _ => none := fun _ _ h => by contradiction

/-- Replayed tables hold encoded outputs. -/
theorem ValidChain.decodes (hvalid : ValidChain D chain) (height : Nat) :
    (replay D (chain.take height)).Decodes := by
  induction height with
  | zero => exact Table.decodes_empty
  | succ height ih =>
      cases hraw : chain[height]? with
      | none =>
          have hlen := List.getElem?_eq_none_iff.mp hraw
          rw [List.take_of_length_le (by omega)]
          rwa [List.take_of_length_le hlen] at ih
      | some raw =>
          obtain ⟨block, hparse, hover⟩ := hvalid.valid height raw hraw
          rw [replay_take_succ D hraw, tableStep_of_parse hparse,
            tableAfter_eq _ (parseAt_shape hparse) hover.spent_nodup ih]
          exact ih.blockTable _ _

/-- One more block, outpoint by outpoint. -/
theorem ValidChain.replay_succ (hvalid : ValidChain D chain) {height : Nat} {raw : RawBlock}
    {block : FullBlock} (hraw : chain[height]? = some raw)
    (hparse : parseAt D raw height = .ok block) :
    replay D (chain.take (height + 1)) =
      blockTable (UInt32.ofNat height) block (replay D (chain.take height)) := by
  obtain ⟨block', hparse', hover⟩ := hvalid.valid height raw hraw
  obtain rfl := Except.ok.inj (hparse'.symm.trans hparse)
  rw [replay_take_succ D hraw, tableStep_of_parse hparse,
    tableAfter_eq _ (parseAt_shape hparse) hover.spent_nodup (hvalid.decodes height)]

theorem getElem?_of_take {count height : Nat} {raw : RawBlock}
    (h : (chain.take count)[height]? = some raw) : height < count ∧ chain[height]? = some raw := by
  rw [List.getElem?_take] at h
  by_cases hlt : height < count
  · rw [if_pos hlt] at h
    exact ⟨hlt, h⟩
  · rw [if_neg hlt] at h
    contradiction

/-- A beginning of a valid chain is a valid chain. -/
theorem ValidChain.take (hvalid : ValidChain D chain) (count : Nat) :
    ValidChain D (chain.take count) where
  length_lt := (List.length_take_le' _ _).trans_lt hvalid.length_lt
  valid := by
    intro height raw hraw
    obtain ⟨hlt, hraw'⟩ := getElem?_of_take hraw
    rw [List.take_take, Nat.min_eq_left hlt.le]
    exact hvalid.valid height raw hraw'
  hash_ne_zero raw hraw := hvalid.hash_ne_zero raw (List.mem_of_mem_take hraw)
  root raw hraw := hvalid.root raw (getElem?_of_take hraw).2
  linked height raw next hraw hnext :=
    hvalid.linked height raw next (getElem?_of_take hraw).2 (getElem?_of_take hnext).2

end Valid

/-- A hash stands for one block in both chains. -/
def SharedHashes (D : Digests) (A B : List RawBlock) : Prop :=
  ∀ a ∈ A, ∀ b ∈ B, blockHash D a = blockHash D b → a = b

instance (D : Digests) (A B : List RawBlock) : Decidable (SharedHashes D A B) :=
  inferInstanceAs (Decidable (∀ a ∈ A, ∀ b ∈ B, blockHash D a = blockHash D b → a = b))

/-! ## The node -/

/-- The node's best chain is `chain`; it may know other blocks too. -/
structure Serves (D : Digests) (chain : List RawBlock) (view : NodeView) : Prop where
  blockCount : view.blockCount = .ok (UInt32.ofNat (chain.length - 1))
  blockHash : ∀ (height : Nat) (raw : RawBlock), chain[height]? = some raw →
    view.blockHash (UInt32.ofNat height) = .ok (Bidx.blockHash D raw)
  above : ∀ height : UInt32, chain.length ≤ height.toNat → ∃ e, view.blockHash height = .error e
  blockRaw : ∀ raw ∈ chain, view.blockRaw (Bidx.blockHash D raw) = .ok raw

/-- A node that knows this chain only. -/
def serving (D : Digests) (chain : List RawBlock) : NodeView where
  blockCount := .ok (UInt32.ofNat (chain.length - 1))
  blockHash height :=
    match chain[height.toNat]? with
    | some raw => .ok (blockHash D raw)
    | none => .error (.rpc (-8) "Block height out of range")
  blockRaw hash :=
    match chain.find? fun raw => blockHash D raw = hash with
    | some raw => .ok raw
    | none => .error (.rpc (-5) "Block not found")

theorem serves_serving {D : Digests} {chain : List RawBlock} (hlen : chain.length < 2 ^ 32)
    (hnodup : (chain.map (blockHash D)).Nodup) : Serves D chain (serving D chain) where
  blockCount := rfl
  blockHash := by
    intro height raw hraw
    have hlt : height < chain.length := (List.getElem?_eq_some_iff.mp hraw).1
    have hnat : (UInt32.ofNat height).toNat = height := toNat_ofNat_height (by omega)
    simp only [serving, hnat, hraw]
  above := by
    intro height hle
    simp only [serving, List.getElem?_eq_none hle]
    exact ⟨_, rfl⟩
  blockRaw := by
    intro raw hraw
    cases hfind : chain.find? fun raw' => blockHash D raw' = blockHash D raw with
    | none =>
        have hnone := List.find?_eq_none.mp hfind raw hraw
        simp at hnone
    | some raw' =>
        have hhash : blockHash D raw' = blockHash D raw := by
          simpa using List.find?_some hfind
        have := List.inj_on_of_nodup_map hnodup (List.mem_of_find?_eq_some hfind) hraw hhash
        simp only [serving, hfind, this]

/-! ## A small block tree

A genesis block and two branches of two blocks each, every block with a coinbase
transaction only, its txid as merkle root and enough work for the easiest target. -/

/-- A block of the tree, with the digests of its transaction and its header. -/
structure MinedBlock where
  tag : UInt8
  prev : Nat
  time : Nat
  nonce : Nat
  txDigest : Nat
  txid : Nat
  headerDigest : Nat
  hash : Nat

namespace MinedBlock

def coinbase (b : MinedBlock) : WireTx where
  version := 1
  inputs := [⟨zeroBytes 32, 0xFFFFFFFF, [b.tag], 0xFFFFFFFF⟩]
  outputs := [⟨5000000000, [0x51]⟩]
  locktime := 0
  witness := none

def header (b : MinedBlock) : Bytes 80 :=
  ⟨LittleEndian.toBytes 4 1 ++ (LittleEndian.toBytes 32 b.prev ++
      (LittleEndian.toBytes 32 b.txid ++ (LittleEndian.toBytes 4 b.time ++
        (LittleEndian.toBytes 4 0x207fffff ++ LittleEndian.toBytes 4 b.nonce)))), by simp⟩

def raw (b : MinedBlock) : RawBlock := blockBytes b.header [b.coinbase]

/-- SHA-256 on the transaction, the header and their first digests. -/
def table (b : MinedBlock) : List (List UInt8 × Bytes 32) :=
  [(b.coinbase.stripped, wordBytes 32 b.txDigest),
    (LittleEndian.toBytes 32 b.txDigest, wordBytes 32 b.txid),
    (b.header.toList, wordBytes 32 b.headerDigest),
    (LittleEndian.toBytes 32 b.headerDigest, wordBytes 32 b.hash)]

end MinedBlock

def sampleGenesis : MinedBlock where
  tag := 0x51
  prev := 0
  time := 1296688602
  nonce := 5
  txDigest := 0x73afff974a18777131c5a60af86962dedae646cfcb6c9f0478c7d5dd99f8214b
  txid := 0x8a80d3fdd7bfacbfeca3c58c84102d3bb7d6a2aadf67c0bed8c84890470c4e9a
  headerDigest := 0x5adb5456566f63e44aa9a54c21031fe0ba0610efea5f832bf473917795192700
  hash := 0x08b6b9ce9228448f9b81aff2eafde753e0f0457ab8e4ed00e7324ee2915de900

def sampleOld1 : MinedBlock where
  tag := 0x52
  prev := sampleGenesis.hash
  time := 1296688603
  nonce := 0
  txDigest := 0x739f293f9d005ddb3909ff38b7c33570dd3a28b89eae68fc02ad89bb51a846bc
  txid := 0x935885bdeedb40efaae2175b4d10982b8446751c799f10795ac32fad6ec2d583
  headerDigest := 0x6f876b6b57b63ff9666c13ef13e4b42dcc0bed7fa08c9eea37ccc22149c92a9d
  hash := 0x2f5d8aedb3b3b0f85450870d5b80d857ba1bfce298b26a2c1b35579c40a4f0c4

def sampleOld2 : MinedBlock where
  tag := 0x53
  prev := sampleOld1.hash
  time := 1296688604
  nonce := 0
  txDigest := 0x5eac52c2a02555ff87e8f47759bc82f0a1eb106fa0532587b14de96bce827aac
  txid := 0x7c09543b8634ce317a1dd69c462f0685090657e5039c9d3b62833b193a48447a
  headerDigest := 0xb59ea9b16c48dc7ad1864a5f135b21a65623c69f5888e5139a96b452c06dd374
  hash := 0x2e6b13b121d9d761c71266f1ddae0a3e4d07c43c6b6debbe2f991bbff9e6ac99

def sampleNew1 : MinedBlock where
  tag := 0x54
  prev := sampleGenesis.hash
  time := 1296688603
  nonce := 3
  txDigest := 0x9564a13862674707c59503acab0df98e966ef0a9e548557fece0e688d0586f3d
  txid := 0xcf3bb548a4abf6f42227b6079155fb26d847aa6e33128f85ac9abc5e08a21622
  headerDigest := 0x65b5a4132da53fe4b500b9d24421cc8d08f15791633bc8e3cd1d2175100c8308
  hash := 0x6276b0e94f918046e12c9df7985163cd10f9b8ab8424b8d330d3669efb642f10

def sampleNew2 : MinedBlock where
  tag := 0x55
  prev := sampleNew1.hash
  time := 1296688604
  nonce := 0
  txDigest := 0x72c5e677c6eafcc9268db9d66974e423de974d235bf67c4b59ce75d681b0d412
  txid := 0x1b532639ca15e5b5c97e68f510079742da03abac92ac086d78162d6c5c122bfe
  headerDigest := 0xb33fcceaa968b68aa68202ecd358a37865db566064fc91f0b35fda35e8b54415
  hash := 0x5b9651005721e5438ea25715c9b6f9b3e15d71ab52495f27e614f103e0fdbcab

def treeDigests : Digests := Digests.ofTable
  ([sampleGenesis, sampleOld1, sampleOld2, sampleNew1, sampleNew2].flatMap MinedBlock.table)

/-- The old branch. -/
def oldChain : List RawBlock := [sampleGenesis.raw, sampleOld1.raw, sampleOld2.raw]

/-- The new branch. -/
def newChain : List RawBlock := [sampleGenesis.raw, sampleNew1.raw, sampleNew2.raw]

theorem oldChain_valid : ValidChain treeDigests oldChain := by decide +kernel

theorem newChain_valid : ValidChain treeDigests newChain := by decide +kernel

end Bidx
