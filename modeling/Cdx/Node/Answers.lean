import Cdx.Node.Misbehavior

namespace cdx

/-! The messages that the handlers send back to the peer they work for. -/

namespace CNodeHandler

section Answers

variable [Crypto] (params : ChainParams)

/-- What `SendTo` writes: nothing if the frame cannot be built. -/
def sent (command : String) (payload : Bytes) : List CNetMessage :=
  match buildMessage params.networkMagic (ascii command) payload with
  | none => []
  | some _ => [⟨ascii command, payload⟩]

def headersRequest (node : Node) : List CNetMessage :=
  sent params "getheaders" (buildGetHeadersPayload node.chain.locator 0)

def answersVersion (inbound : Bool) (node : Node) (payload : Bytes) : List CNetMessage :=
  match deserializeVersion payload with
  | none => []
  | some v =>
    if v.version < MIN_PROTOCOL_VERSION then []
    else
      (if inbound then sent params "version" (serializeVersion (ownVersion node.chain.chain.height)) else []) ++
        (sent params "verack" [] ++ headersRequest params node)

def answersInv (node : Node) (payload : Bytes) : List CNetMessage :=
  match deserializeInv payload with
  | none => []
  | some inv =>
    let want := (inv.filter (wants node)).take 500
    if want = [] then [] else sent params "getdata" (serializeInv want)

/-- The transaction is relayed to every peer that has shaken hands, this one included. -/
def answersTx (handshakeDone : Bool) (node : Node) (payload : Bytes) : List CNetMessage :=
  match deserializeTransaction payload with
  | none => []
  | some tx =>
    if node.mempool.mapTx.contains (getTxID tx) then []
    else
      match node.mempool.checkTx tx node.chain.chain.view node.chain.chain.height with
      | .ok _ => if handshakeDone then sent params "tx" (serializeTransaction tx) else []
      | .error _ => []

def answersHeaders (node : Node) (payload : Bytes) : List CNetMessage :=
  match parseHeadersPayload payload with
  | none => []
  | some headers =>
    if headers = [] then []
    else
      let missing := (headers.map CBlockHeader.getHash).filter fun hash => !node.chain.haveBlock hash
      let want : List CInv := (missing.take 100).map fun hash => ⟨.BLOCK, hash⟩
      (if want = [] then [] else sent params "getdata" (serializeInv want)) ++
        (if missing ≠ [] ∨ headers.length ≥ 2000 then headersRequest params node else [])

def answersGetAddr (peerCount : Nat) : List CNetMessage :=
  sent params "addr" (writeVarInt peerCount ++ List.replicate (26 * peerCount) 0)

variable [Memory]

def answersGetData (node : Node) (payload : Bytes) : List CNetMessage :=
  match deserializeInv payload with
  | none => []
  | some inv =>
    let ((txSer, blockSer), _) := collectData node.mempool inv node.chain
    txSer.flatMap (sent params "tx") ++ blockSer.flatMap (sent params "block")

def answersBlock (theirStartHeight : Int32) (node : Node) (payload : Bytes) : List CNetMessage :=
  match deserializeBlock payload with
  | none => []
  | some blk =>
    match node.handleBlock params blk with
    | none => []
    | some (r, node) =>
      if r.ok then if node.chain.chain.height < theirStartHeight.toInt then headersRequest params node else []
      else if unknownPrev r.error then headersRequest params node
      else []

def answersGetHeaders (node : Node) (payload : Bytes) : List CNetMessage :=
  match parseGetHeadersPayload payload with
  | none => []
  | some (locator, hashStop) => sent params "headers" (buildHeadersPayload (node.chain.handleGetHeaders locator hashStop).1)

/-- What `OnMessage` sends back. -/
def answers (env : Environment) (peer : Remote) (msg : CNetMessage) : List CNetMessage :=
  let node := peer.world.node
  if msg.command = ascii "version" then answersVersion params peer.world.inbound node msg.payload
  else if msg.command = ascii "verack" then []
  else if msg.command = ascii "inv" then answersInv params node msg.payload
  else if msg.command = ascii "getdata" then answersGetData params node msg.payload
  else if msg.command = ascii "tx" then answersTx params peer.world.handshakeDone node msg.payload
  else if msg.command = ascii "block" then answersBlock params peer.world.theirStartHeight node msg.payload
  else if msg.command = ascii "getheaders" then answersGetHeaders params node msg.payload
  else if msg.command = ascii "headers" then answersHeaders params node msg.payload
  else if msg.command = ascii "ping" then sent params "pong" msg.payload
  else if msg.command = ascii "getaddr" then answersGetAddr params (env.peerCount (peer.world.handled + 1))
  else []

end Answers

end CNodeHandler

/-- A handler writes these messages to the peer, and nothing else changes about who made the connection. -/
structure Answered (peer after : Remote) (out : List CNetMessage) : Prop where
  writes : after.world.writes = peer.world.writes + out.length
  inbound : after.world.inbound = peer.world.inbound

namespace Answered

variable {peer after : Remote} {out : List CNetMessage}

theorem quiet (hwrites : after.world.writes = peer.world.writes) (hinbound : after.world.inbound = peer.world.inbound) :
    Answered peer after [] := ⟨hwrites, hinbound⟩

theorem ite {c : Prop} [Decidable c] {a b : Remote} {x y : List CNetMessage} (ha : Answered peer a x)
    (hb : Answered peer b y) : Answered peer (if c then a else b) (if c then x else y) := by
  split
  · exact ha
  · exact hb

variable [Crypto] (params : ChainParams) (env : Environment)

theorem sendTo (hanswered : Answered peer after out) (command : String) (payload : Bytes) :
    Answered peer (CNodeHandler.sendTo params env after command payload)
      (out ++ CNodeHandler.sent params command payload) := by
  unfold CNodeHandler.sendTo CNodeHandler.sent
  cases buildMessage params.networkMagic (ascii command) payload with
  | none =>
    simp only [List.append_nil]
    exact hanswered
  | some frame =>
    have hwrites : after.world.writes + 1 =
        peer.world.writes + (out ++ [(⟨ascii command, payload⟩ : CNetMessage)]).length := by
      rw [hanswered.writes, List.length_append]
      rfl
    simp only
    split
    · exact ⟨hwrites, hanswered.inbound⟩
    · exact ⟨hwrites, hanswered.inbound⟩

theorem sendAll (hanswered : Answered peer after out) (command : String) (payloads : List Bytes) :
    Answered peer (payloads.foldl (fun peer ser => CNodeHandler.sendTo params env peer command ser) after)
      (out ++ payloads.flatMap (CNodeHandler.sent params command)) := by
  induction payloads generalizing after out with
  | nil =>
    rw [List.flatMap_nil, List.append_nil]
    exact hanswered
  | cons ser payloads ih =>
    rw [List.foldl_cons, List.flatMap_cons, ← List.append_assoc]
    exact ih (hanswered.sendTo params env command ser)

theorem requestHeaders (hanswered : Answered peer after out) {node : Node} (hnode : after.world.node = node) :
    Answered peer (CNodeHandler.requestHeaders params env after) (out ++ CNodeHandler.headersRequest params node) := by
  rw [← hnode]
  exact hanswered.sendTo params env _ _

end Answered

namespace CNodeHandler

section Handlers

variable [Crypto] (params : ChainParams) (env : Environment) (peer : Remote) (payload : Bytes)

theorem node_sendTo (command : String) : (sendTo params env peer command payload).world.node = peer.world.node :=
  ((handled_refl peer).sendTo command payload).node

theorem answered_version :
    Answered peer (handleVersion params env peer payload)
      (answersVersion params peer.world.inbound peer.world.node payload) := by
  unfold handleVersion answersVersion
  cases deserializeVersion payload with
  | none => exact .quiet rfl rfl
  | some v =>
    refine .ite (.quiet rfl rfl) ?_
    let greeted : Remote :=
      { peer with world := { peer.world with handshakeDone := true, theirStartHeight := v.startHeight } }
    have hgreeted : Answered peer greeted [] := .quiet rfl rfl
    have hversion := hgreeted.sendTo params env "version" (serializeVersion (ownVersion peer.world.node.chain.chain.height))
    have hfirst := Answered.ite (c := peer.world.inbound = true) hversion hgreeted
    have hnode (after : Remote) (hafter : after.world.node = peer.world.node) :
        (sendTo params env after "verack" []).world.node = peer.world.node :=
      (node_sendTo params env after _ _).trans hafter
    have hanswered := (hfirst.sendTo params env "verack" []).requestHeaders params env (hnode _ (by
      split
      · exact node_sendTo params env greeted _ _
      · rfl))
    rw [List.append_assoc] at hanswered
    exact hanswered

theorem answered_inv :
    Answered peer (handleInv params env peer payload) (answersInv params peer.world.node payload) := by
  unfold handleInv answersInv
  cases deserializeInv payload with
  | none => exact .quiet rfl rfl
  | some inv =>
    have hquiet : Answered peer peer [] := .quiet rfl rfl
    exact .ite hquiet (hquiet.sendTo params env _ _)

theorem answered_tx :
    Answered peer (handleTx params env peer payload)
      (answersTx params peer.world.handshakeDone peer.world.node payload) := by
  unfold handleTx answersTx
  cases deserializeTransaction payload with
  | none => exact .quiet rfl rfl
  | some tx =>
    refine .ite (.quiet rfl rfl) ?_
    simp only
    cases peer.world.node.mempool.checkTx tx peer.world.node.chain.chain.view peer.world.node.chain.chain.height with
    | error reject => cases reject <;> exact .quiet rfl rfl
    | ok fee =>
      have hmoved (node : Node) : Answered peer (peer.setNode node) [] := .quiet rfl rfl
      exact .ite ((hmoved _).sendTo params env _ _) (hmoved _)

theorem answered_headers :
    Answered peer (handleHeaders params env peer payload) (answersHeaders params peer.world.node payload) := by
  unfold handleHeaders answersHeaders
  cases parseHeadersPayload payload with
  | none => exact .quiet rfl rfl
  | some headers =>
    have hquiet : Answered peer peer [] := .quiet rfl rfl
    refine .ite hquiet ?_
    simp only
    split <;> split
    · exact hquiet.requestHeaders params env rfl
    · exact (hquiet.sendTo params env _ _).requestHeaders params env (node_sendTo params env peer _ _)
    · exact hquiet
    · rw [List.append_nil]
      exact hquiet.sendTo params env _ _

variable [Memory]

theorem answered_getData :
    Answered peer (handleGetData params env peer payload) (answersGetData params peer.world.node payload) := by
  unfold handleGetData answersGetData
  cases deserializeInv payload with
  | none => exact .quiet rfl rfl
  | some inv =>
    have hmoved (node : Node) : Answered peer (peer.setNode node) [] := .quiet rfl rfl
    exact ((hmoved _).sendAll params env "tx" _).sendAll params env "block" _

theorem answered_block :
    Answered peer (handleBlock params env peer payload)
      (answersBlock params peer.world.theirStartHeight peer.world.node payload) := by
  unfold handleBlock answersBlock
  cases deserializeBlock payload with
  | none => exact .quiet rfl rfl
  | some blk =>
    cases hresult : peer.world.node.handleBlock params blk with
    | none =>
      simp only [hresult]
      exact .quiet rfl rfl
    | some result =>
      obtain ⟨r, node⟩ := result
      have hmoved : Answered peer (peer.setNode node) [] := .quiet rfl rfl
      have hrequest : Answered peer (requestHeaders params env (peer.setNode node)) (headersRequest params node) :=
        hmoved.requestHeaders params env rfl
      simp only [hresult]
      refine .ite (.ite hrequest hmoved) (.ite hrequest ?_)
      split
      · exact .quiet rfl rfl
      · exact hmoved

theorem answered_getHeaders :
    Answered peer (handleGetHeaders params env peer payload) (answersGetHeaders params peer.world.node payload) := by
  unfold handleGetHeaders answersGetHeaders
  cases parseGetHeadersPayload payload with
  | none => exact .quiet rfl rfl
  | some request =>
    obtain ⟨locator, hashStop⟩ := request
    have hmoved (node : Node) : Answered peer (peer.setNode node) [] := .quiet rfl rfl
    simp only
    cases peer.world.node.chain.handleGetHeaders locator hashStop with
    | mk out chain => exact (hmoved _).sendTo params env _ _

/-- The answers are the frames that `OnMessage` writes. -/
theorem answered_onMessage (msg : CNetMessage) :
    Answered peer.countMessage (onMessage params env peer msg) (answers params env peer msg) := by
  have hquiet : Answered peer.countMessage peer.countMessage [] := .quiet rfl rfl
  unfold onMessage answers
  refine .ite (answered_version params env peer.countMessage msg.payload) ?_
  refine .ite (.quiet rfl rfl) ?_
  refine .ite (answered_inv params env peer.countMessage msg.payload) ?_
  refine .ite (answered_getData params env peer.countMessage msg.payload) ?_
  refine .ite (answered_tx params env peer.countMessage msg.payload) ?_
  refine .ite (answered_block params env peer.countMessage msg.payload) ?_
  refine .ite (answered_getHeaders params env peer.countMessage msg.payload) ?_
  refine .ite (answered_headers params env peer.countMessage msg.payload) ?_
  exact .ite (hquiet.sendTo params env _ _) (.ite (hquiet.sendTo params env _ _) hquiet)

end Handlers

end CNodeHandler

end cdx
