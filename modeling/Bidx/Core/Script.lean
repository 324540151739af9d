import Bidx.Core.Types

/-!
# ScriptPubKey classification

`classify_script` compares a scriptPubKey with the standard output templates in
a fixed order and returns the type code together with the 32-byte address hash.
Every byte access below carries its bound, so an index out of range cannot be
written; the length tests of the source are what supplies the bounds.
-/

namespace Bidx

/-- The compact type codes stored in the database. -/
inductive ScriptType where
  | unknown
  | p2pk
  | p2pkh
  | p2sh
  | p2wpkh
  | p2wsh
  | p2tr
  | opReturn
  | bareMultisig
  | witnessUnknown
deriving DecidableEq, Repr

/-- The `u8` discriminant (`script_type as u8`). -/
def ScriptType.code : ScriptType → UInt8
  | .unknown => 0
  | .p2pk => 1
  | .p2pkh => 2
  | .p2sh => 3
  | .p2wpkh => 4
  | .p2wsh => 5
  | .p2tr => 6
  | .opReturn => 7
  | .bareMultisig => 8
  | .witnessUnknown => 9

/-- Address-relevant hash, right-padded with zeros. -/
abbrev AddressHash := Bytes 32

/-- `pad_slice`: the first 32 bytes, zero padded. -/
def padSlice (b : List UInt8) : AddressHash :=
  ⟨b.takeD 32 0, List.takeD_length ..⟩

/-- `pad20`: a 20-byte hash, zero padded. -/
def pad20 (h : Bytes 20) : AddressHash := padSlice h.toList

/-- `76 a9 14 <20> 88 ac`. -/
def isP2pkh (spk : List UInt8) : Bool :=
  if h : spk.length = 25 then
    spk[0] == 0x76 && spk[1] == 0xa9 && spk[2] == 0x14 && spk[23] == 0x88 && spk[24] == 0xac
  else
    false

/-- `a9 14 <20> 87`. -/
def isP2sh (spk : List UInt8) : Bool :=
  if h : spk.length = 23 then
    spk[0] == 0xa9 && spk[1] == 0x14 && spk[22] == 0x87
  else
    false

/-- The segwit branch: `OP_n <program>` with one push filling the script. -/
def classifyWitness (spk : List UInt8) : Option (ScriptType × AddressHash) :=
  if h : 4 ≤ spk.length ∧ spk.length ≤ 42 then
    have hlen : 4 ≤ spk.length := h.1
    let op := spk[0]
    let pushLen := spk[1].toNat
    if pushLen + 2 = spk.length ∧ 2 ≤ pushLen ∧ pushLen ≤ 40 then
      if op = 0x00 then
        if pushLen = 20 then
          some (.p2wpkh, padSlice ((spk.drop 2).take 20))
        else if pushLen = 32 then
          some (.p2wsh, padSlice ((spk.drop 2).take 32))
        else
          some (.witnessUnknown, padSlice (spk.drop 2))
      else if 0x51 ≤ op ∧ op ≤ 0x60 then
        if op = 0x51 ∧ pushLen = 32 then
          some (.p2tr, padSlice ((spk.drop 2).take 32))
        else
          some (.witnessUnknown, padSlice (spk.drop 2))
      else
        none
    else
      none
  else
    none

/-- `OP_RETURN` at the start. -/
def isOpReturn (spk : List UInt8) : Bool :=
  if h : 1 ≤ spk.length then spk[0] == 0x6a else false

/-- `<keyLen-byte push> OP_CHECKSIG`: a script of `keyLen + 2` bytes. -/
def isKeyPush (keyLen : Nat) (spk : List UInt8) : Bool :=
  if h : spk.length = keyLen + 2 then
    spk[0].toNat == keyLen && spk[keyLen + 1] == 0xac
  else
    false

/-- `<33|65 pubkey> OP_CHECKSIG`, returning the key bytes when they start with
a compressed (02/03) or uncompressed (04) prefix. -/
def p2pkKey (spk : List UInt8) : Option (List UInt8) :=
  if isKeyPush 33 spk || isKeyPush 65 spk then
    match (spk.drop 1).take (spk.headD 0).toNat with
    | [] => none
    | first :: rest =>
        if 0x02 ≤ first ∧ first ≤ 0x04 then some (first :: rest) else none
  else
    none

/-- The pubkey walk of `is_bare_multisig`: `i` is the cursor, `count` the `u8`
number of pushes seen so far.  Each push moves the cursor, so `fuel` bounds the
loop; `spk.length` is always enough. -/
def multisigWalk (spk : List UInt8) (n : UInt8) : Nat → Nat → UInt8 → Bool
  | 0, _, _ => false
  | fuel + 1, i, count =>
      if h : i < spk.length - 2 then
        have hi : i < spk.length := by omega
        let push := spk[i].toNat
        if push ≠ 33 ∧ push ≠ 65 then
          false
        else if spk.length - 2 < i + 1 + push then
          false
        else
          multisigWalk spk n fuel (i + 1 + push) (count + 1)
      else
        decide (i = spk.length - 2) && count == n

/-- `OP_m <pubkeys...> OP_n OP_CHECKMULTISIG`. -/
def isBareMultisig (spk : List UInt8) : Bool :=
  if h : 3 ≤ spk.length then
    have hlast : spk.length - 1 < spk.length := by omega
    have hn : spk.length - 2 < spk.length := by omega
    if spk[spk.length - 1] ≠ 0xae then
      false
    else
      let m := spk[0]
      let n := spk[spk.length - 2]
      if ¬(0x51 ≤ m ∧ m ≤ 0x60) ∨ ¬(0x51 ≤ n ∧ n ≤ 0x60) then
        false
      else if m - 0x50 = 0 ∨ n - 0x50 = 0 ∨ n - 0x50 < m - 0x50 then
        false
      else
        multisigWalk spk (n - 0x50) spk.length 1 0
  else
    false

/-- `classify_script`: the first matching template decides. -/
def classifyScript (D : Digests) (spk : List UInt8) : ScriptType × AddressHash :=
  if isP2pkh spk then
    (.p2pkh, padSlice ((spk.drop 3).take 20))
  else if isP2sh spk then
    (.p2sh, padSlice ((spk.drop 2).take 20))
  else
    match classifyWitness spk with
    | some result => result
    | none =>
        if isOpReturn spk then
          (.opReturn, zeroBytes 32)
        else
          match p2pkKey spk with
          | some pk => (.p2pk, pad20 (hash160 D pk))
          | none =>
              if isBareMultisig spk then
                (.bareMultisig, pad20 (hash160 D spk))
              else
                (.unknown, zeroBytes 32)

end Bidx
