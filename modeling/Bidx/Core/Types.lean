import Bidx.Lib.LittleEndian

/-!
# Core row types and the digest interface

`bidx-core`'s data model: hashes are raw 32-byte arrays in wire order, block
headers are the 80 wire bytes split into their fields, and every parsed block
becomes one `BlockRow` plus lists of `TxRow`, `InputRow` and `OutputRow`.
Fixed-width integers keep the widths of the source.

SHA-256 and RIPEMD-160 come from third-party crates.  They enter as the fields
of a `Digests` record; nothing is assumed of them here.
-/

namespace Bidx

/-- A fixed-length byte array `[u8; n]`. -/
abbrev Bytes (n : Nat) := List.Vector UInt8 n

/-- The all-zero array `[0u8; n]`. -/
def zeroBytes (n : Nat) : Bytes n := List.Vector.replicate n 0

/-- Membership in a list of byte strings, and quantification over one, are decided along
the list. -/
instance Bytes.decidableMem {n : Nat} (b : Bytes n) (l : List (Bytes n)) : Decidable (b ∈ l) :=
  List.instDecidableMemOfLawfulBEq b l

instance Bytes.decidableBAll {n : Nat} {p : Bytes n → Prop} [DecidablePred p]
    (l : List (Bytes n)) : Decidable (∀ b ∈ l, p b) :=
  List.decidableBAll p l

/-- A 32-byte hash in wire order. -/
abbrev Hash32 := Bytes 32

/-- `Hash32::ZERO`, the parent of a genesis block. -/
def Hash32.zero : Hash32 := zeroBytes 32

/-- The two digest primitives the indexer imports. -/
structure Digests where
  sha256 : List UInt8 → Bytes 32
  ripemd160 : List UInt8 → Bytes 20

/-- Double SHA-256. -/
def dsha256 (D : Digests) (data : List UInt8) : Hash32 :=
  D.sha256 (D.sha256 data).toList

/-- RIPEMD-160 of SHA-256. -/
def hash160 (D : Digests) (data : List UInt8) : Bytes 20 :=
  D.ripemd160 (D.sha256 data).toList

/-- The `n`-byte array holding a number little-endian; a hash in display order
reads as such a number. -/
def wordBytes (n v : Nat) : Bytes n := ⟨LittleEndian.toBytes n v, LittleEndian.length_toBytes n v⟩

/-- Digests known at finitely many inputs, for evaluating concrete blocks. -/
def Digests.ofTable (table : List (List UInt8 × Bytes 32)) : Digests where
  sha256 data := (table.lookup data).getD (zeroBytes 32)
  ripemd160 _ := zeroBytes 20

/-- `BLOCK_HEADER_LEN`. -/
def blockHeaderLen : Nat := 80

/-- The bytes of a header with the given parent and nonce, for evaluating concrete
chains. -/
def headerBytes (prev : Hash32) (nonce : Nat) : Bytes blockHeaderLen :=
  ⟨LittleEndian.toBytes 4 1 ++ (prev.toList ++ ((zeroBytes 32).toList ++
      (LittleEndian.toBytes 4 0 ++ (LittleEndian.toBytes 4 0x1d00ffff ++
        LittleEndian.toBytes 4 nonce)))), by simp [blockHeaderLen]⟩

structure BlockHeader where
  version : Int32
  prevHash : Hash32
  merkleRoot : Hash32
  time : UInt32
  bits : UInt32
  nonce : UInt32
deriving DecidableEq

/-- The `u32` stored little-endian at an offset. -/
def u32At (bs : List UInt8) (start : Nat) : UInt32 :=
  UInt32.ofNat (LittleEndian.ofBytes ((bs.drop start).take 4))

/-- `BlockHeader::parse`: split the 80 header bytes into their fields. -/
def BlockHeader.parse (raw : Bytes blockHeaderLen) : BlockHeader where
  version := (u32At raw.toList 0).toInt32
  prevHash := LittleEndian.arrayAt 32 raw.toList 4
  merkleRoot := LittleEndian.arrayAt 32 raw.toList 36
  time := u32At raw.toList 68
  bits := u32At raw.toList 72
  nonce := u32At raw.toList 76

/-- A block's position inside a blk file. -/
structure BlockLocation where
  fileId : UInt32
  offset : UInt64
  recordLen : UInt32
deriving DecidableEq

structure BlockRow where
  height : UInt32
  hash : Bytes 32
  prevHash : Bytes 32
  merkleRoot : Bytes 32
  time : UInt32
  bits : UInt32
  nonce : UInt32
  version : Int32
  txCount : UInt32
  size : UInt32
  weight : UInt32
  totalFee : UInt64
  coinbaseValue : UInt64
deriving DecidableEq

structure TxRow where
  height : UInt32
  txIndex : UInt32
  txid : Bytes 32
  version : Int32
  locktime : UInt32
  size : UInt32
  weight : UInt32
  fee : UInt64
  inputCount : UInt32
  outputCount : UInt32
  hasWitness : Bool
deriving DecidableEq

structure InputRow where
  height : UInt32
  txIndex : UInt32
  inputIndex : UInt32
  txid : Bytes 32
  prevTxid : Bytes 32
  prevVout : UInt32
  scriptSigLen : UInt32
  sequence : UInt32
  witnessItems : UInt32
  witnessBytes : UInt32
  isCoinbase : Bool
deriving DecidableEq

structure OutputRow where
  height : UInt32
  txIndex : UInt32
  outputIndex : UInt32
  txid : Bytes 32
  valueSat : UInt64
  scriptPubkeyLen : UInt32
  scriptType : UInt8
  addressHash : Bytes 32
deriving DecidableEq

/-- An input joined with the output it spends. -/
structure SpendRow where
  height : UInt32
  spendingTxIndex : UInt32
  spendingInputIndex : UInt32
  spendingTxid : Bytes 32
  spentTxid : Bytes 32
  spentVout : UInt32
  spentValueSat : UInt64
  spentScriptType : UInt8
  spentAddressHash : Bytes 32
  spentHeight : UInt32
deriving DecidableEq

/-- A fully parsed block. -/
structure FullBlock where
  blockRow : BlockRow
  txs : List TxRow
  inputs : List InputRow
  outputs : List OutputRow
deriving DecidableEq

/-- How a call ends when it does not return a value: with an error of its own
error type, or by a panic (a slice or index out of range). -/
inductive Stop (ε : Type) where
  | error (e : ε)
  | panic
deriving DecidableEq

end Bidx
