import Mathlib.Tactic.Common

/-!
# Networks

The five networks the indexer knows, their wire magics and their names.  A magic
is the `u32` read little-endian from the four bytes on the wire.
-/

namespace Bidx

/-- `BLOCK_MAGIC` (mainnet). -/
def blockMagic : UInt32 := 0xD9B4BEF9

def blockMagicTestnet3 : UInt32 := 0x0709110B

def blockMagicSignet : UInt32 := 0x40CF030A

def blockMagicTestnet4 : UInt32 := 0x283F161C

def blockMagicRegtest : UInt32 := 0xDAB5BFFA

/-- `is_known_network_magic`. -/
def isKnownNetworkMagic (magic : UInt32) : Bool :=
  magic == blockMagic || magic == blockMagicTestnet3 || magic == blockMagicSignet ||
    magic == blockMagicTestnet4 || magic == blockMagicRegtest

/-- A property of the five magics is one of every known magic. -/
theorem known_magic_cases {P : UInt32 → Prop} (h₁ : P blockMagic) (h₂ : P blockMagicTestnet3)
    (h₃ : P blockMagicSignet) (h₄ : P blockMagicTestnet4) (h₅ : P blockMagicRegtest)
    {magic : UInt32} (h : isKnownNetworkMagic magic = true) : P magic := by
  simp only [isKnownNetworkMagic, Bool.or_eq_true, beq_iff_eq, or_assoc] at h
  rcases h with rfl | rfl | rfl | rfl | rfl <;> assumption

inductive Network where
  | mainnet
  | testnet3
  | testnet4
  | signet
  | regtest
deriving DecidableEq

/-- `Network::name`. -/
def Network.name : Network → String
  | .mainnet => "mainnet"
  | .testnet3 => "testnet3"
  | .testnet4 => "testnet4"
  | .signet => "signet"
  | .regtest => "regtest"

/-- `Network::from_magic`. -/
def Network.fromMagic (magic : UInt32) : Option Network :=
  if magic = blockMagic then some .mainnet
  else if magic = blockMagicTestnet3 then some .testnet3
  else if magic = blockMagicSignet then some .signet
  else if magic = blockMagicTestnet4 then some .testnet4
  else if magic = blockMagicRegtest then some .regtest
  else none

/-- The magic a network's records start with. -/
def Network.magic : Network → UInt32
  | .mainnet => blockMagic
  | .testnet3 => blockMagicTestnet3
  | .testnet4 => blockMagicTestnet4
  | .signet => blockMagicSignet
  | .regtest => blockMagicRegtest

theorem Network.magic_of_fromMagic {magic : UInt32} {net : Network}
    (h : Network.fromMagic magic = some net) : net.magic = magic := by
  rw [Network.fromMagic] at h
  split_ifs at h with hmagic hmagic hmagic hmagic hmagic <;>
    · rw [hmagic, ← Option.some.inj h]
      rfl

theorem Network.fromMagic_isSome {magic : UInt32} (h : isKnownNetworkMagic magic = true) :
    (Network.fromMagic magic).isSome := by
  apply known_magic_cases (P := fun magic => (Network.fromMagic magic).isSome) _ _ _ _ _ h <;>
    decide

/-- A known magic is told apart from every other word. -/
theorem Network.fromMagic_eq_iff {magic magic' : UInt32} (h : isKnownNetworkMagic magic' = true) :
    Network.fromMagic magic = Network.fromMagic magic' ↔ magic = magic' := by
  refine ⟨fun heq => ?_, fun heq => congrArg _ heq⟩
  obtain ⟨net, hnet⟩ := Option.isSome_iff_exists.mp (Network.fromMagic_isSome h)
  rw [← Network.magic_of_fromMagic hnet, ← Network.magic_of_fromMagic (heq.trans hnet)]

end Bidx
