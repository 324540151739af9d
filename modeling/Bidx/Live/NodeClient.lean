import Bidx.Lib.Json
import Bidx.Live.Orphans
import Bidx.Live.Reorg

/-!
# The node behind JSON-RPC

`NodeClient` asks the node by JSON-RPC over a transport, and reads the answers back: numbers,
hashes in display hex, blocks in hex.  Over a transport that answers from a chain, or breaks in
whatever way, the tracker meets the node that its other results assume
(`client_servesOrFails`), and
over one that answers from a tree of blocks the orphan set is the stale part of it
(`client_orphans`).

The transport and the hex crate are parameters.
-/

namespace Bidx

open Json ParentForest

/-! ## Calls -/

/-- `RpcTransport`. -/
abbrev RpcTransport := Value → Except RpcError Value

/-- The hex crate with `decode`, whose error is given by its text. -/
structure HexText extends HexCrate where
  decode : List Char → Except String (List UInt8)
  decode_encode_bytes : ∀ bs : List UInt8, decode (encode bs) = .ok bs

structure RpcErr where
  code : Int
  message : List Char

structure RpcResp (α : Type) where
  result : Option α
  error : Option RpcErr

def readRpcErr : Reader RpcErr
  | .obj members => do
      let code ← required members "code" (signed (2 ^ 63))
      let message ← required members "message" string
      return ⟨code, message⟩
  | .arr [code, message] => do
      let code ← signed (2 ^ 63) code
      let message ← string message
      return ⟨code, message⟩
  | _ => none

def readRpcResp {α : Type} (read : Reader α) : Reader (RpcResp α)
  | .obj members => do
      let result ← optional members "result" read
      let error ← optional members "error" readRpcErr
      return ⟨result, error⟩
  | .arr [result, error] => do
      let result ← option read result
      let error ← option readRpcErr error
      return ⟨result, error⟩
  | _ => none

def readU32 : Reader UInt32 := fun v => (unsigned (2 ^ 32) v).map UInt32.ofNat

def readHeaderInfo : Reader BlockHeaderInfo
  | .obj members => do
      let _ ← required members "hash" string
      let _ ← required members "height" readU32
      let _ ← required members "confirmations" (signed (2 ^ 63))
      let previous ← optional members "previousblockhash" string
      let _ ← optional members "nextblockhash" string
      return ⟨previous⟩
  | .arr [hash, height, confirmations, previous, next] => do
      let _ ← string hash
      let _ ← readU32 height
      let _ ← signed (2 ^ 63) confirmations
      let previous ← option string previous
      let _ ← option string next
      return ⟨previous⟩
  | _ => none

def readChainTip : Reader ChainTip
  | .obj members => do
      let _ ← required members "height" readU32
      let hash ← required members "hash" string
      let branchLen ← required members "branchlen" readU32
      let status ← required members "status" string
      return ⟨hash, branchLen, String.ofList status⟩
  | .arr [height, hash, branchLen, status] => do
      let _ ← readU32 height
      let hash ← string hash
      let branchLen ← readU32 branchLen
      let status ← string status
      return ⟨hash, branchLen, String.ofList status⟩
  | _ => none

/-- The body of a request. -/
def rpcBody (method : String) (params : List Value) : Value :=
  .obj [("jsonrpc", .str "1.0".toList), ("id", .str "bidx".toList),
    ("method", .str method.toList), ("params", .arr params)]

/-- `call`. -/
def call {α : Type} (transport : RpcTransport) (read : Reader α) (method : String)
    (params : List Value) : Except RpcError α :=
  match transport (rpcBody method params) with
  | .error e => .error e
  | .ok resp =>
      match readRpcResp read resp with
      | none => .error .json
      | some parsed =>
          match parsed.error with
          | some e => .error (.rpc e.code (String.ofList e.message))
          | none =>
              match parsed.result with
              | some result => .ok result
              | none => .error (.badResponse (method ++ ": null result"))

section Client

variable (H : HexText) (transport : RpcTransport)

def getBlockCount : Except RpcError UInt32 := call transport readU32 "getblockcount" []

def getBlockHash (height : UInt32) : Except RpcError Hash32 :=
  match call transport string "getblockhash" [.num height.toNat] with
  | .error e => .error e
  | .ok hex => (Hash32.fromHex H.toHexCrate hex).mapError .badResponse

/-- `get_block_header`, by the text of the hash. -/
def getBlockHeader (hash : List Char) : Except RpcError BlockHeaderInfo :=
  call transport readHeaderInfo "getblockheader" [.str hash]

def getBlockRaw (hash : Hash32) : Except RpcError (List UInt8) :=
  match call transport string "getblock" [.str (hash.toHex H.toHexCrate), .num 0] with
  | .error e => .error e
  | .ok hex => (H.decode hex).mapError .badResponse

def chainTips : Except RpcError (List ChainTip) :=
  call transport (list readChainTip) "getchaintips" []

/-- The node as the tracker sees it. -/
def nodeView : NodeView where
  blockCount := getBlockCount transport
  blockHash := getBlockHash H transport
  blockRaw := getBlockRaw H transport

/-- The node as the orphan filter sees it. -/
def tipsView : TipsView where
  chainTips := chainTips transport
  blockHeader := getBlockHeader transport

end Client

/-! ## Answers -/

/-- A call is answered with a result. -/
def Answers (transport : RpcTransport) (method : String) (params : List Value) (v : Value) :
    Prop :=
  ∃ members, transport (rpcBody method params) = .ok (.obj members) ∧
    members.lookup "result" = some v ∧ (members.lookup "error").getD .null = .null

/-- What a response has for a result and for an error. -/
def replyMembers : Value → Option (Value × Value)
  | .obj members =>
      some ((members.lookup "result").getD .null, (members.lookup "error").getD .null)
  | .arr [result, error] => some (result, error)
  | _ => none

/-- A call that fails: at the transport, with an error of whatever content, with something that
is no response, or with a result that is `bad`. -/
def Breaks (transport : RpcTransport) (method : String) (params : List Value)
    (bad : Value → Prop) : Prop :=
  ∀ resp result error, transport (rpcBody method params) = .ok resp →
    replyMembers resp = some (result, error) → error ≠ .null ∨ bad result

def NotHeight (v : Value) : Prop := ∀ n : Nat, n < 2 ^ 32 → v ≠ .num n

def NotHash (H : HexText) (v : Value) : Prop :=
  ∀ s, v = .str s → ∃ e, Hash32.fromHex H.toHexCrate s = .error e

def NotHex (H : HexText) (v : Value) : Prop := ∀ s, v = .str s → ∃ e, H.decode s = .error e

/-- A transport to a node whose best chain is `chain`. -/
structure ServesJson (H : HexText) (D : Digests) (chain : List RawBlock)
    (transport : RpcTransport) : Prop where
  blockCount : Answers transport "getblockcount" [] (.num (chain.length - 1 : Nat))
  blockHash : ∀ (height : Nat) (raw : RawBlock), chain[height]? = some raw →
    Answers transport "getblockhash" [.num height]
      (.str ((Bidx.blockHash D raw).toHex H.toHexCrate))
  above : ∀ height : UInt32, chain.length ≤ height.toNat →
    Breaks transport "getblockhash" [.num height.toNat] (NotHash H)
  blockRaw : ∀ raw ∈ chain, Answers transport "getblock"
    [.str ((Bidx.blockHash D raw).toHex H.toHexCrate), .num 0] (.str (H.encode raw))

/-- A transport over which every call of the tracker fails. -/
structure BrokenJson (H : HexText) (transport : RpcTransport) : Prop where
  blockCount : Breaks transport "getblockcount" [] NotHeight
  blockHash : ∀ height : UInt32,
    Breaks transport "getblockhash" [.num height.toNat] (NotHash H)
  blockRaw : ∀ hash : Hash32,
    Breaks transport "getblock" [.str (hash.toHex H.toHexCrate), .num 0] (NotHex H)

section Call

variable {α : Type} {read : Reader α} {transport : RpcTransport} {method : String}
  {params : List Value} {bad : Value → Prop} {v : Value} {a : α}

theorem Answers.call (h : Answers transport method params v) (hnull : v ≠ .null)
    (hread : read v = some a) : call transport read method params = .ok a := by
  obtain ⟨members, hresp, hresult, herror⟩ := h
  have hparsed : readRpcResp read (.obj members) = some ⟨some a, none⟩ := by
    rw [readRpcResp, optional_of_lookup hresult hnull hread, optional_of_null herror]
    rfl
  rw [Bidx.call, hresp]
  simp only [hparsed]

theorem replyMembers_of_read {resp : Value} (h : readRpcResp read resp = some ⟨some a, none⟩) :
    ∃ result, replyMembers resp = some (result, .null) ∧ read result = some a := by
  unfold readRpcResp at h
  split at h
  · rename_i members
    simp only [optional_eq_option, Option.bind_eq_bind, Option.bind_eq_some_iff] at h
    obtain ⟨result, hresult, error, herror, heq⟩ := h
    obtain ⟨rfl, rfl⟩ := RpcResp.mk.inj (Option.some.inj heq)
    refine ⟨_, ?_, read_of_option hresult⟩
    rw [replyMembers, null_of_option herror]
  · rename_i result error
    simp only [Option.bind_eq_bind, Option.bind_eq_some_iff] at h
    obtain ⟨result', hresult, error', herror, heq⟩ := h
    obtain ⟨rfl, rfl⟩ := RpcResp.mk.inj (Option.some.inj heq)
    refine ⟨result, ?_, read_of_option hresult⟩
    rw [replyMembers, null_of_option herror]
  · contradiction

/-- What a call returns was read from the response's result. -/
theorem reply_of_call (h : call transport read method params = .ok a) :
    ∃ resp result, transport (rpcBody method params) = .ok resp ∧
      replyMembers resp = some (result, .null) ∧ read result = some a := by
  unfold call at h
  split at h
  · contradiction
  · rename_i resp hresp
    split at h
    · contradiction
    · rename_i parsed hparsed
      obtain ⟨result, error⟩ := parsed
      cases error with
      | some e => contradiction
      | none =>
          cases result with
          | none => contradiction
          | some a' =>
              obtain rfl := Except.ok.inj h
              obtain ⟨result, hmembers, hread⟩ := replyMembers_of_read hparsed
              exact ⟨resp, result, hresp, hmembers, hread⟩

/-- A call that breaks returns at most what was read from a bad result. -/
theorem Breaks.bad_of_call (h : Breaks transport method params bad)
    (hcall : call transport read method params = .ok a) : ∃ v, bad v ∧ read v = some a := by
  obtain ⟨resp, result, hresp, hmembers, hread⟩ := reply_of_call hcall
  exact ⟨result, (h resp result .null hresp hmembers).resolve_left (fun hne => hne rfl), hread⟩

theorem Breaks.bad_of_string {s : List Char} (h : Breaks transport method params bad)
    (hcall : call transport string method params = .ok s) : bad (.str s) := by
  obtain ⟨v, hbad, hread⟩ := h.bad_of_call hcall
  exact str_of_string hread ▸ hbad

theorem readU32_num {n : Nat} (h : n < 2 ^ 32) : readU32 (.num n) = some (UInt32.ofNat n) := by
  rw [readU32, unsigned_num h]
  rfl

theorem Breaks.getBlockCount (h : Breaks transport "getblockcount" [] NotHeight) :
    ∃ e, Bidx.getBlockCount transport = .error e := by
  cases hcall : Bidx.getBlockCount transport with
  | error e => exact ⟨e, rfl⟩
  | ok count =>
      obtain ⟨v, hbad, hread⟩ := h.bad_of_call hcall
      obtain ⟨n, hn, -⟩ := Option.map_eq_some_iff.mp hread
      obtain ⟨hlt, hnum⟩ := num_of_unsigned hn
      exact absurd hnum (hbad n hlt)

theorem Breaks.getBlockHash {H : HexText} {height : UInt32}
    (h : Breaks transport "getblockhash" [.num height.toNat] (NotHash H)) :
    ∃ e, Bidx.getBlockHash H transport height = .error e := by
  unfold Bidx.getBlockHash
  cases hcall : call transport string "getblockhash" [.num height.toNat] with
  | error e => exact ⟨e, rfl⟩
  | ok hex =>
      obtain ⟨e, he⟩ := h.bad_of_string hcall hex rfl
      exact ⟨.badResponse e, by simp only [he, Except.mapError]⟩

theorem Breaks.getBlockRaw {H : HexText} {hash : Hash32}
    (h : Breaks transport "getblock" [.str (hash.toHex H.toHexCrate), .num 0] (NotHex H)) :
    ∃ e, Bidx.getBlockRaw H transport hash = .error e := by
  unfold Bidx.getBlockRaw
  cases hcall : call transport string "getblock" [.str (hash.toHex H.toHexCrate), .num 0] with
  | error e => exact ⟨e, rfl⟩
  | ok hex =>
      obtain ⟨e, he⟩ := h.bad_of_string hcall hex rfl
      exact ⟨.badResponse e, by simp only [he, Except.mapError]⟩

end Call

/-! ## The tracker's node -/

section Node

variable {H : HexText} {D : Digests} {chain : List RawBlock} {transport : RpcTransport}

theorem ServesJson.serves (h : ServesJson H D chain transport) (hlen : chain.length ≤ 2 ^ 32) :
    Serves D chain (nodeView H transport) where
  blockCount := h.blockCount.call Value.noConfusion (readU32_num (by omega))
  blockHash := by
    intro height raw hraw
    have hlt : height < chain.length := (List.getElem?_eq_some_iff.mp hraw).1
    have hnat : (UInt32.ofNat height).toNat = height := toNat_ofNat_height (by omega)
    have hcall : call transport string "getblockhash" [.num (UInt32.ofNat height).toNat] =
        .ok ((Bidx.blockHash D raw).toHex H.toHexCrate) := by
      rw [hnat]
      exact (h.blockHash height raw hraw).call Value.noConfusion rfl
    change getBlockHash H transport (UInt32.ofNat height) = _
    rw [getBlockHash, hcall]
    simp only [Hash32.fromHex_toHex]
    rfl
  above height hheight := (h.above height hheight).getBlockHash
  blockRaw := by
    intro raw hraw
    have hcall := (h.blockRaw raw hraw).call Value.noConfusion (rfl : string _ = some _)
    change getBlockRaw H transport (Bidx.blockHash D raw) = _
    rw [getBlockRaw, hcall]
    simp only [H.decode_encode_bytes]
    rfl

theorem BrokenJson.fails (h : BrokenJson H transport) : Fails (nodeView H transport) where
  blockCount := h.blockCount.getBlockCount
  blockHash height := (h.blockHash height).getBlockHash
  blockRaw hash := (h.blockRaw hash).getBlockRaw

end Node

/-- Over transports that answer from a chain in JSON, or break in any way, the tracker has a
node that answers from the chain, or not at all. -/
theorem client_servesOrFails (H : HexText) (D : Digests) (chain : List RawBlock)
    (transports : Nat → RpcTransport) (hlen : chain.length ≤ 2 ^ 32)
    (h : ∀ i, ServesJson H D chain (transports i) ∨ BrokenJson H (transports i)) :
    ServesOrFails D chain fun i => nodeView H (transports i) := by
  intro i
  rcases h i with hserves | hbroken
  · exact .inl (hserves.serves hlen)
  · exact .inr hbroken.fails

/-- What a node writes for a result. -/
def resultObject (v : Value) : Value :=
  .obj [("result", v), ("error", .null), ("id", .str "bidx".toList)]

/-- What a node writes for an error. -/
def errorObject (code : Int) (message : String) : Value :=
  .obj [("result", .null), ("error", .obj [("code", .num code), ("message", .str message.toList)]),
    ("id", .str "bidx".toList)]

def reply : Except RpcError Value → Except RpcError Value
  | .ok v => .ok (resultObject v)
  | .error (.rpc code message) => .ok (errorObject code message)
  | .error e => .error e

/-- A node behind JSON-RPC, by its answers. -/
def server (answer : List Char → List Value → Except RpcError Value) : RpcTransport
  | .obj [_, _, (_, .str method), (_, .arr params)] => reply (answer method params)
  | _ => .error .http

theorem server_rpcBody (answer : List Char → List Value → Except RpcError Value)
    (method : String) (params : List Value) :
    server answer (rpcBody method params) = reply (answer method.toList params) := rfl

/-- What a node that knows one chain answers. -/
def chainAnswer (H : HexText) (D : Digests) (chain : List RawBlock) (method : List Char)
    (params : List Value) : Except RpcError Value :=
  if method = "getblockcount".toList then
    (serving D chain).blockCount.map fun count => .num count.toNat
  else
    match params with
    | [.num height] =>
        ((serving D chain).blockHash (UInt32.ofNat height.toNat)).map fun hash =>
          .str (hash.toHex H.toHexCrate)
    | [.str hex, .num _] =>
        match Hash32.fromHex H.toHexCrate hex with
        | .ok hash => ((serving D chain).blockRaw hash).map fun raw => .str (H.encode raw)
        | .error e => .error (.rpc (-8) e)
    | _ => .error (.rpc (-32602) "Invalid params")

theorem answers_of_reply {transport : RpcTransport} {method : String} {params : List Value}
    {v : Value} (h : transport (rpcBody method params) = .ok (resultObject v)) :
    Answers transport method params v := ⟨_, h, rfl, rfl⟩

theorem breaks_of_reply {transport : RpcTransport} {method : String} {params : List Value}
    {bad : Value → Prop} {code : Int} {message : String}
    (h : transport (rpcBody method params) = .ok (errorObject code message)) :
    Breaks transport method params bad := by
  intro resp result error hresp hmembers
  obtain rfl := Except.ok.inj (h.symm.trans hresp)
  obtain ⟨-, rfl⟩ := Prod.mk.inj (Option.some.inj hmembers)
  exact .inl Value.noConfusion

theorem servesJson_chainAnswer (H : HexText) {D : Digests} {chain : List RawBlock}
    (hlen : chain.length < 2 ^ 32) (hnodup : (chain.map (blockHash D)).Nodup) :
    ServesJson H D chain (server (chainAnswer H D chain)) := by
  have hserves := serves_serving hlen hnodup
  have hcount : "getblockhash".toList ≠ "getblockcount".toList := by decide
  have hblock : "getblock".toList ≠ "getblockcount".toList := by decide
  have hnat : (UInt32.ofNat (chain.length - 1)).toNat = chain.length - 1 :=
    toNat_ofNat_height (by omega)
  refine ⟨answers_of_reply ?_, fun height raw hraw => answers_of_reply ?_, ?_,
    fun raw hraw => answers_of_reply ?_⟩
  · rw [server_rpcBody]
    unfold chainAnswer
    rw [if_pos rfl, hserves.blockCount, Except.map, hnat]
    rfl
  · rw [server_rpcBody, chainAnswer, if_neg hcount]
    simp only [Int.toNat_natCast, hserves.blockHash height raw hraw, Except.map]
    rfl
  · intro height hheight
    have hnone : chain[height.toNat]? = none := List.getElem?_eq_none_iff.mpr hheight
    have hreply : server (chainAnswer H D chain) (rpcBody "getblockhash" [.num height.toNat]) =
        .ok (errorObject (-8) "Block height out of range") := by
      rw [server_rpcBody, chainAnswer, if_neg hcount]
      simp only [Int.toNat_natCast, UInt32.ofNat_toNat, serving, hnone]
      rfl
    exact breaks_of_reply hreply
  · rw [server_rpcBody, chainAnswer, if_neg hblock]
    simp only [Hash32.fromHex_toHex, hserves.blockRaw raw hraw, Except.map]
    rfl

/-- Hex as the crate writes and reads it, at any length. -/
def lowerHexText : HexText where
  toHexCrate := lowerHex
  decode s :=
    match Hex.decode s with
    | some bs => .ok bs
    | none => .error "Invalid character"
  decode_encode_bytes bs := by
    change (match Hex.decode (Hex.encode bs) with
      | some bs => Except.ok bs
      | none => .error "Invalid character") = _
    rw [Hex.decode_encode]

/-- A transport whose every result is of the wrong type. -/
theorem brokenJson_bool (H : HexText) : BrokenJson H fun _ => .ok (resultObject (.bool true)) := by
  have hbad : ∀ method params bad, bad (.bool true) →
      Breaks (fun _ => .ok (resultObject (.bool true))) method params bad := by
    intro method params bad hbool resp result error hresp hmembers
    obtain rfl := Except.ok.inj hresp
    obtain ⟨rfl, -⟩ := Prod.mk.inj (Option.some.inj hmembers)
    exact .inr hbool
  exact ⟨hbad _ _ _ nofun, fun _ => hbad _ _ _ nofun, fun _ => hbad _ _ _ nofun⟩

/-- Every other call has a result of the wrong type. -/
theorem client_servesOrFails_sample :
    ServesOrFails treeDigests newChain fun i => nodeView lowerHexText
      (if i % 2 = 0 then server (chainAnswer lowerHexText treeDigests newChain)
        else fun _ => .ok (resultObject (.bool true))) :=
  client_servesOrFails lowerHexText treeDigests newChain _ (by decide) fun i => by
    by_cases heven : i % 2 = 0
    · rw [if_pos heven]
      exact .inl (servesJson_chainAnswer _ (by decide) newChain_hashes_nodup)
    · rw [if_neg heven]
      exact .inr (brokenJson_bool _)

/-! ## The orphan filter's node -/

/-- The members of a header that name its parent. -/
structure HeaderMembers (H : HexText) (link : Option Hash32) (members : List (String × Value)) :
    Prop where
  hash : ∃ s, members.lookup "hash" = some (.str s)
  height : ∃ n : Nat, n < 2 ^ 32 ∧ members.lookup "height" = some (.num n)
  confirmations : ∃ n : Int, -2 ^ 63 ≤ n ∧ n < 2 ^ 63 ∧
    members.lookup "confirmations" = some (.num n)
  previous : members.lookup "previousblockhash" = link.map fun p => .str (p.toHex H.toHexCrate)
  next : members.lookup "nextblockhash" = none ∨
    ∃ s, members.lookup "nextblockhash" = some (.str s)

/-- A tip as it is written. -/
def tipObject (height : ChainTip → UInt32) (tip : ChainTip) : Value :=
  .obj [("height", .num (height tip).toNat), ("hash", .str tip.hash),
    ("branchlen", .num tip.branchLen.toNat), ("status", .str tip.status.toList)]

/-- A transport to a node with a tree of blocks and these tips. -/
structure ServesTree (H : HexText) (parent : Hash32 → Option (Option Hash32))
    (tips : List ChainTip) (transport : RpcTransport) : Prop where
  tips : ∃ height, Answers transport "getchaintips" [] (.arr (tips.map (tipObject height)))
  headers : ∀ h link, parent h = some link → ∃ members, HeaderMembers H link members ∧
    Answers transport "getblockheader" [.str (h.toHex H.toHexCrate)] (.obj members)

theorem readU32_toNat (n : UInt32) : readU32 (.num n.toNat) = some n := by
  rw [readU32_num n.toNat_lt, UInt32.ofNat_toNat]

theorem readChainTip_tipObject (height : ChainTip → UInt32) (tip : ChainTip) :
    readChainTip (tipObject height tip) = some tip := by
  rw [tipObject, readChainTip, required_of_lookup rfl (readU32_toNat _),
    required_of_lookup rfl (rfl : string (.str tip.hash) = _),
    required_of_lookup rfl (readU32_toNat _),
    required_of_lookup rfl (rfl : string (.str tip.status.toList) = _)]
  simp

theorem HeaderMembers.read {H : HexText} {link : Option Hash32} {members : List (String × Value)}
    (h : HeaderMembers H link members) :
    readHeaderInfo (.obj members) = some ⟨link.map fun p => p.toHex H.toHexCrate⟩ := by
  obtain ⟨hash, hhash⟩ := h.hash
  obtain ⟨height, hbound, hheight⟩ := h.height
  obtain ⟨confirmations, hle, hlt, hconfirmations⟩ := h.confirmations
  have hsigned : signed (2 ^ 63) (.num confirmations) = some confirmations :=
    signed_num (by exact_mod_cast hle) (by exact_mod_cast hlt)
  have hprevious : optional members "previousblockhash" string =
      some (link.map fun p => p.toHex H.toHexCrate) := by
    have hlookup := h.previous
    cases link with
    | none => exact optional_of_null (by rw [hlookup]; rfl)
    | some p => exact optional_of_lookup hlookup Value.noConfusion rfl
  have hnext : ∃ next, optional members "nextblockhash" string = some next := by
    rcases h.next with hnone | ⟨s, hs⟩
    · exact ⟨none, optional_of_null (by rw [hnone]; rfl)⟩
    · exact ⟨some s, optional_of_lookup hs Value.noConfusion rfl⟩
  obtain ⟨next, hnext⟩ := hnext
  rw [readHeaderInfo, required_of_lookup hhash (rfl : string (.str hash) = _),
    required_of_lookup hheight (readU32_num hbound), required_of_lookup hconfirmations hsigned,
    hprevious, hnext]
  rfl

section Tree

variable {H : HexText} {parent : Hash32 → Option (Option Hash32)} {tips : List ChainTip}
  {transport : RpcTransport}

theorem ServesTree.answersHeaders (h : ServesTree H parent tips transport) :
    AnswersHeaders H.toHexCrate (tipsView transport) parent := by
  intro hash link hlink
  obtain ⟨members, hmembers, hanswer⟩ := h.headers hash link hlink
  exact hanswer.call Value.noConfusion hmembers.read

theorem ServesTree.chainTips (h : ServesTree H parent tips transport) :
    (tipsView transport).chainTips = .ok tips := by
  obtain ⟨height, hanswer⟩ := h.tips
  exact hanswer.call Value.noConfusion (list_arr fun tip _ => readChainTip_tipObject height tip)

end Tree

/-- Over a transport that answers from a tree of blocks, each tip reported with its distance
to the active chain, the orphan set is the stale part of the tree. -/
theorem client_orphans (H : HexText) (parent : Hash32 → Option (Option Hash32))
    (active : List Hash32) (tips : List ChainTip) (transport : RpcTransport)
    (h : ServesTree H parent tips transport)
    (hreports : ∀ tip ∈ tips, ∃ nodes, ReportsBranch H.toHexCrate parent active tip nodes) :
    ∃ set, orphanBlockHashes H.toHexCrate (tipsView transport) = .ok set ∧
      ∀ b, b ∈ set ↔ StaleAt H.toHexCrate parent active tips b := by
  obtain ⟨set, hset, hmem⟩ := foldlM_orphansOfTip h.answersHeaders hreports []
  refine ⟨set, ?_, fun b => ?_⟩
  · rw [orphanBlockHashes, h.chainTips]
    exact hset
  · rw [hmem b, or_iff_right List.not_mem_nil]

/-- A header, its height and confirmations made up. -/
def headerMembers (H : HexText) (hex : List Char) (link : Option Hash32) :
    List (String × Value) :=
  ("hash", .str hex) :: ("height", .num 0) :: ("confirmations", .num 1) :: match link with
    | some p => [("previousblockhash", .str (p.toHex H.toHexCrate))]
    | none => []

/-- What a node with a tree of blocks answers. -/
def treeAnswer (H : HexText) (parent : Hash32 → Option (Option Hash32)) (tips : List ChainTip)
    (method : List Char) (params : List Value) : Except RpcError Value :=
  if method = "getchaintips".toList then
    .ok (.arr (tips.map (tipObject fun _ => 0)))
  else
    match params with
    | [.str hex] =>
        match Hash32.fromHex H.toHexCrate hex with
        | .ok hash =>
            match parent hash with
            | some link => .ok (.obj (headerMembers H hex link))
            | none => .error (.rpc (-5) "Block not found")
        | .error e => .error (.rpc (-8) e)
    | _ => .error (.rpc (-32602) "Invalid params")

theorem servesTree_treeAnswer (H : HexText) (parent : Hash32 → Option (Option Hash32))
    (tips : List ChainTip) : ServesTree H parent tips (server (treeAnswer H parent tips)) := by
  have hheader : "getblockheader".toList ≠ "getchaintips".toList := by decide
  refine ⟨⟨fun _ => 0, answers_of_reply ?_⟩, ?_⟩
  · rw [server_rpcBody]
    unfold treeAnswer
    rw [if_pos rfl]
    rfl
  · intro hash link hlink
    refine ⟨headerMembers H (hash.toHex H.toHexCrate) link, ?_, answers_of_reply ?_⟩
    · cases link <;>
        exact ⟨⟨_, rfl⟩, ⟨0, by decide, rfl⟩, ⟨1, by decide, by decide, rfl⟩, rfl, .inl rfl⟩
    · rw [server_rpcBody, treeAnswer, if_neg hheader]
      simp only [Hash32.fromHex_toHex, hlink]
      rfl

theorem client_orphans_sample :
    ∃ set, orphanBlockHashes lowerHex
        (tipsView (server (treeAnswer lowerHexText forkParent forkTips))) = .ok set ∧
      ∀ b, b ∈ set ↔ StaleAt lowerHex forkParent [forkBlock 1, forkBlock 2] forkTips b := by
  refine client_orphans lowerHexText forkParent _ forkTips _ (servesTree_treeAnswer _ _ _) ?_
  rw [forkTips, List.forall_mem_cons, List.forall_mem_singleton]
  exact ⟨⟨_, ⟨_, rfl, branch_forkParent (by decide)⟩, by decide⟩,
    ⟨_, ⟨_, rfl, branch_forkParent (by decide)⟩, by decide⟩⟩

end Bidx
