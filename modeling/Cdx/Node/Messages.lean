import Cdx.Node.Headers
import Cdx.Node.Node
import Cdx.P2p.Payload
import Cdx.P2p.Server

namespace cdx

/-! The message handlers of the node, with what they do to the connection that a message came from. -/

def PROTOCOL_VERSION : Int32 := 10001

def MIN_PROTOCOL_VERSION : Int32 := 10001

/-- What the handlers meet outside the node: whether the `n`th write to the peer goes through, and the
    clock and the number of peers when the `n`th message is handled. -/
structure Environment where
  accepts : Nat → Bool
  now : Nat → Int
  peerCount : Nat → Nat

/-- A connection apart from its score, its flag and its buffer, and the node behind it. -/
structure Connection where
  node : Node
  inbound : Bool := true
  handshakeDone : Bool := false
  verackReceived : Bool := false
  theirStartHeight : Int32 := 0
  writes : Nat := 0
  handled : Nat := 0

abbrev Remote := Peer Connection

namespace Peer

def addScore (peer : Remote) (points : Int) : Remote := { peer with misbehaviorScore := peer.misbehaviorScore + points }

def markDisconnected (peer : Remote) : Remote := { peer with disconnected := true }

def setNode (peer : Remote) (node : Node) : Remote := { peer with world := { peer.world with node := node } }

/-- One more message is handled. -/
def countMessage (peer : Remote) : Remote :=
  { peer with world := { peer.world with handled := peer.world.handled + 1 } }

end Peer

/-- The hash at a height. The source reads foreign memory where the list is shorter than the height
    says, which no reachable chain has; here there is no hash then. -/
def CBlockchain.getBlockHashByHeight (bc : CBlockchain) (height : Int) : Option UInt256 :=
  if height < 0 ∨ height > bc.chain.height then none else bc.chain.byHeight[height.toNat]?

/-- The loop that fills a locator downwards from height `h`, for so many rounds at most: the first
    hashes one by one, then every second one. -/
def CBlockchain.locatorFrom (bc : CBlockchain) : Nat → Int → List UInt256 → List UInt256
  | 0, _, locator => locator
  | rounds + 1, h, locator =>
    if h ≥ 0 ∧ locator.length < 32 then
      let locator := locator ++ (bc.getBlockHashByHeight h).toList
      bc.locatorFrom rounds (h - if locator.length > 10 then 2 else 1) locator
    else locator

/-- Every round goes down, so the loop is over after one round for each height. -/
def CBlockchain.locator (bc : CBlockchain) : List UInt256 :=
  bc.locatorFrom (bc.chain.height + 1).toNat bc.chain.height []

def zeroAddress : NetAddress := ⟨List.replicate 26 0, List.length_replicate⟩

theorem length_userAgent : (ascii "/CDX:0.1.0/").length < 2 ^ 64 := by decide

/-- The version message that `HandleVersion` answers with: all defaults but the height. -/
def ownVersion (height : Int) : CVersionMessage where
  version := PROTOCOL_VERSION
  services := 0
  timestamp := 0
  addrMe := zeroAddress
  addrYou := zeroAddress
  nonce := 0
  userAgent := ⟨ascii "/CDX:0.1.0/", length_userAgent⟩
  startHeight := Int32.ofInt height
  relay := true

namespace CNodeHandler

variable [Crypto] [Memory] (params : ChainParams) (env : Environment)

omit [Memory] in
/-- `SendTo` this peer: a write that fails marks it. -/
def sendTo (peer : Remote) (command : String) (payload : Bytes) : Remote :=
  match buildMessage params.networkMagic (ascii command) payload with
  | none => peer
  | some _ =>
    let sent : Remote := { peer with world := { peer.world with writes := peer.world.writes + 1 } }
    if env.accepts peer.world.writes then sent else sent.markDisconnected

/-- The request for the headers above the tip. -/
def requestHeaders (peer : Remote) : Remote :=
  sendTo params env peer "getheaders" (buildGetHeadersPayload peer.world.node.chain.locator 0)

def handleVersion (peer : Remote) (payload : Bytes) : Remote :=
  match deserializeVersion payload with
  | none => peer.markDisconnected
  | some v =>
    if v.version < MIN_PROTOCOL_VERSION then peer.markDisconnected
    else
      let peer : Remote := { peer with world := { peer.world with handshakeDone := true, theirStartHeight := v.startHeight } }
      let peer :=
        if peer.world.inbound then
          sendTo params env peer "version" (serializeVersion (ownVersion peer.world.node.chain.chain.height))
        else peer
      requestHeaders params env (sendTo params env peer "verack" [])

/-- An item of an inventory that the node does not have. -/
def wants (node : Node) (i : CInv) : Bool :=
  if i.type = .TX then !node.mempool.mapTx.contains i.hash
  else if i.type = .BLOCK then !node.chain.haveBlock i.hash
  else false

def handleInv (peer : Remote) (payload : Bytes) : Remote :=
  match deserializeInv payload with
  | none => peer.addScore 10
  | some inv =>
    let want := (inv.filter (wants peer.world.node)).take 500
    if want = [] then peer else sendTo params env peer "getdata" (serializeInv want)

/-- The transactions and the blocks that are there, in the order they are asked for. -/
def collectData (pool : CTxMemPool) : List CInv → CBlockchain → (List Bytes × List Bytes) × CBlockchain
  | [], bc => (([], []), bc)
  | i :: rest, bc =>
    if i.type = .TX then
      let r := collectData pool rest bc
      match pool.mapTx[i.hash]? with
      | some entry => ((serializeTransaction entry.tx :: r.1.1, r.1.2), r.2)
      | none => r
    else if i.type = .BLOCK then
      let (blk, bc) := bc.readBlock i.hash
      let r := collectData pool rest bc
      match blk with
      | some blk => ((r.1.1, serializeBlock blk :: r.1.2), r.2)
      | none => r
    else collectData pool rest bc

def handleGetData (peer : Remote) (payload : Bytes) : Remote :=
  match deserializeInv payload with
  | none => peer.addScore 10
  | some inv =>
    let node := peer.world.node
    let ((txSer, blockSer), chain) := collectData node.mempool inv node.chain
    let peer := peer.setNode { node with chain := chain }
    let peer := txSer.foldl (fun peer ser => sendTo params env peer "tx" ser) peer
    blockSer.foldl (fun peer ser => sendTo params env peer "block" ser) peer

/-- `RelayTx` as far as this peer is concerned. -/
def relayTx (peer : Remote) (tx : CTransaction) : Remote :=
  if peer.world.handshakeDone then sendTo params env peer "tx" (serializeTransaction tx) else peer

/-- A sum that overflows, which `CheckTx` does not form over the coins of a chain, ends the call. -/
def handleTx (peer : Remote) (payload : Bytes) : Remote :=
  match deserializeTransaction payload with
  | none => peer.addScore 10
  | some tx =>
    let node := peer.world.node
    if node.mempool.mapTx.contains (getTxID tx) then peer
    else
      let height := node.chain.chain.height
      match node.mempool.checkTx tx node.chain.chain.view height with
      | .error (.error _) => peer.addScore 5
      | .error (.overflow _) => peer
      | .ok fee =>
        let mempool := (node.mempool.addUnchecked tx fee height (env.now peer.world.handled)).2
        relayTx params env (peer.setNode { node with mempool := mempool }) tx

/-- The error says that the parent of the block is not known. -/
def unknownPrev (error : String) : Bool := "unknown prev".toList <:+: error.toList

def handleBlock (peer : Remote) (payload : Bytes) : Remote :=
  match deserializeBlock payload with
  | none => peer.addScore 10
  | some blk =>
    match peer.world.node.handleBlock params blk with
    | none => peer
    | some (r, node) =>
      let peer := peer.setNode node
      if r.ok then
        if node.chain.chain.height < peer.world.theirStartHeight.toInt then requestHeaders params env peer else peer
      else if unknownPrev r.error then requestHeaders params env peer
      else if r.error ≠ "" then peer.addScore 10
      else peer

def handleGetHeaders (peer : Remote) (payload : Bytes) : Remote :=
  match parseGetHeadersPayload payload with
  | none => peer.addScore 10
  | some (locator, hashStop) =>
    let node := peer.world.node
    let (out, chain) := node.chain.handleGetHeaders locator hashStop
    sendTo params env (peer.setNode { node with chain := chain }) "headers" (buildHeadersPayload out)

def handleHeaders (peer : Remote) (payload : Bytes) : Remote :=
  match parseHeadersPayload payload with
  | none => peer.addScore 10
  | some headers =>
    if headers = [] then peer
    else
      let missing := (headers.map CBlockHeader.getHash).filter fun hash => !peer.world.node.chain.haveBlock hash
      let want : List CInv := (missing.take 100).map fun hash => ⟨.BLOCK, hash⟩
      let peer := if want = [] then peer else sendTo params env peer "getdata" (serializeInv want)
      if missing ≠ [] ∨ headers.length ≥ 2000 then requestHeaders params env peer else peer

/-- The addresses that `getaddr` is answered with are blank. -/
def handleGetAddr (peer : Remote) : Remote :=
  let n := env.peerCount peer.world.handled
  sendTo params env peer "addr" (writeVarInt n ++ List.replicate (26 * n) 0)

def onMessage (peer : Remote) (msg : CNetMessage) : Remote :=
  let peer := peer.countMessage
  if msg.command = ascii "version" then handleVersion params env peer msg.payload
  else if msg.command = ascii "verack" then { peer with world := { peer.world with verackReceived := true } }
  else if msg.command = ascii "inv" then handleInv params env peer msg.payload
  else if msg.command = ascii "getdata" then handleGetData params env peer msg.payload
  else if msg.command = ascii "tx" then handleTx params env peer msg.payload
  else if msg.command = ascii "block" then handleBlock params env peer msg.payload
  else if msg.command = ascii "getheaders" then handleGetHeaders params env peer msg.payload
  else if msg.command = ascii "headers" then handleHeaders params env peer msg.payload
  else if msg.command = ascii "ping" then sendTo params env peer "pong" msg.payload
  else if msg.command = ascii "getaddr" then handleGetAddr params env peer
  else peer

end CNodeHandler

end cdx
