import Cdx.Config.Networks
import Cdx.Crypto.Sha256
import Cdx.P2p.Protocol

namespace cdx

open codec framing

/-- What the handler may touch of a connection: everything but the receive buffer. `W` is the
    state that `ProcessBuffer` does not look at. -/
structure Peer (W : Type) where
  /-- An `int` of the source. It is unbounded here: a sum past `INT_MAX` takes two hundred million
      messages of a peer that is marked from 200 points on. -/
  misbehaviorScore : Int
  disconnected : Bool
  world : W

structure CNode (W : Type) extends Peer W where
  recvBuffer : Bytes

/-- What `ProcessBuffer` does outside the node: it calls the handler, or it writes to the socket. -/
inductive Action where
  | onMessage (msg : CNetMessage)
  | writeTo (data : Bytes)

def httpMethods : List Bytes := ["GET ", "POST ", "HEAD ", "PUT ", "OPTIONS ", "DELETE ", "PATCH "].map ascii

def httpResponse : Bytes :=
  ascii "HTTP/1.1 200 OK\r\nContent-Type: text/plain\r\nContent-Length: 2\r\nConnection: close\r\n\r\nok"

/-- The buffer starts like a health check. -/
def isHttp (recvBuffer : Bytes) : Bool := httpMethods.any fun m => m.isPrefixOf recvBuffer

namespace CNetServer

variable [Crypto] {W : Type}

/-- The loop of `ProcessBuffer`. A malformed message costs the peer 100 points and the whole buffer. -/
def processLoop (params : ChainParams) (onMessage : Peer W → CNetMessage → Peer W) (node : CNode W) :
    List Action × CNode W :=
  match hparse : parseMessage params.networkMagic node.recvBuffer with
  | .incomplete => ([], node)
  | .invalid =>
    let score := node.misbehaviorScore + 100
    ([], { node with
      misbehaviorScore := score, recvBuffer := [], disconnected := if score ≥ 200 then true else node.disconnected })
  | .complete msg consumed =>
    let (actions, final) := processLoop params onMessage
      { toPeer := onMessage node.toPeer msg, recvBuffer := node.recvBuffer.drop consumed }
    (.onMessage msg :: actions, final)
termination_by node.recvBuffer.length
decreasing_by
  obtain ⟨hlow, hhigh⟩ := parseMessage_consumed hparse
  rw [List.length_drop]
  omega

def processBuffer (params : ChainParams) (onMessage : Peer W → CNetMessage → Peer W) (node : CNode W) :
    List Action × CNode W :=
  if isHttp node.recvBuffer then ([.writeTo httpResponse], { node with disconnected := true })
  else processLoop params onMessage node

/-- What `ReadLoop` does with the chunks it receives. -/
def feed (params : ChainParams) (onMessage : Peer W → CNetMessage → Peer W) : CNode W → List Bytes → List Action × CNode W
  | node, [] => ([], node)
  | node, chunk :: chunks =>
    let (now, mid) := processBuffer params onMessage { node with recvBuffer := node.recvBuffer ++ chunk }
    let (later, final) := feed params onMessage mid chunks
    (now ++ later, final)

theorem processLoop_of_incomplete {params : ChainParams} {onMessage : Peer W → CNetMessage → Peer W} {node : CNode W}
    (hparse : parseMessage params.networkMagic node.recvBuffer = .incomplete) :
    processLoop params onMessage node = ([], node) := by
  unfold processLoop
  split <;> simp_all

theorem processLoop_of_invalid {params : ChainParams} {onMessage : Peer W → CNetMessage → Peer W} {node : CNode W}
    (hparse : parseMessage params.networkMagic node.recvBuffer = .invalid) :
    (processLoop params onMessage node).2.misbehaviorScore = node.misbehaviorScore + 100 ∧
      (processLoop params onMessage node).2.disconnected =
        if node.misbehaviorScore + 100 ≥ 200 then true else node.disconnected := by
  unfold processLoop
  split <;> simp_all

theorem processLoop_of_complete {params : ChainParams} {onMessage : Peer W → CNetMessage → Peer W} {node : CNode W}
    {msg : CNetMessage} {consumed : Nat}
    (hparse : parseMessage params.networkMagic node.recvBuffer = .complete msg consumed) :
    processLoop params onMessage node =
      (.onMessage msg :: (processLoop params onMessage
          { toPeer := onMessage node.toPeer msg, recvBuffer := node.recvBuffer.drop consumed }).1,
        (processLoop params onMessage
          { toPeer := onMessage node.toPeer msg, recvBuffer := node.recvBuffer.drop consumed }).2) := by
  rw [processLoop]
  split <;> simp_all

/-- The loop hands messages to the handler and goes on with the rest of the buffer. -/
theorem processLoop_splits (params : ChainParams) (onMessage : Peer W → CNetMessage → Peer W) {buf left : Bytes}
    {msgs : List CNetMessage} (hsplits : Splits (parseMessage params.networkMagic) buf msgs left) (peer : Peer W) :
    (processLoop params onMessage ⟨peer, buf⟩).2 = (processLoop params onMessage ⟨msgs.foldl onMessage peer, left⟩).2 := by
  induction hsplits generalizing peer with
  | stop => rfl
  | next hparse _ ih =>
    rw [processLoop_of_complete hparse]
    exact ih (onMessage peer _)

/-- The loop hands the messages that the buffer gives up to the handler and keeps the rest. -/
theorem processLoop_eq (params : ChainParams) (onMessage : Peer W → CNetMessage → Peer W) {buf left : Bytes}
    {msgs : List CNetMessage} (hdrains : Drains (parseMessage params.networkMagic) buf msgs left) (peer : Peer W) :
    processLoop params onMessage ⟨peer, buf⟩ = (msgs.map .onMessage, ⟨msgs.foldl onMessage peer, left⟩) := by
  induction hdrains generalizing peer with
  | wait hparse => exact processLoop_of_incomplete hparse
  | next hparse _ ih =>
    rw [processLoop_of_complete hparse]
    simp only [ih, List.map_cons, List.foldl_cons]

theorem feed_eq (params : ChainParams) (onMessage : Peer W → CNetMessage → Peer W) {buf left : Bytes}
    {chunks : List Bytes} {msgs : List CNetMessage}
    (hreceives : Receives (parseMessage params.networkMagic) (fun buf => isHttp buf = false) buf chunks msgs left)
    (peer : Peer W) :
    feed params onMessage ⟨peer, buf⟩ chunks = (msgs.map .onMessage, ⟨msgs.foldl onMessage peer, left⟩) := by
  induction hreceives generalizing peer with
  | done => rfl
  | @chunk buf chunk mid left chunks now later hadmits hdrains _ ih =>
    have hnow : processBuffer params onMessage ⟨peer, buf ++ chunk⟩ =
        (now.map .onMessage, ⟨now.foldl onMessage peer, mid⟩) := by
      unfold processBuffer
      rw [hadmits, if_neg Bool.false_ne_true, processLoop_eq params onMessage hdrains]
    rw [feed, hnow]
    simp only [ih, List.map_append, List.foldl_append]

theorem feed_singleton (params : ChainParams) (onMessage : Peer W → CNetMessage → Peer W) (peer : Peer W) (chunk : Bytes) :
    (feed params onMessage ⟨peer, []⟩ [chunk]).2 = (processBuffer params onMessage ⟨peer, chunk⟩).2 := rfl

omit [Crypto] in
theorem isHttp_cons {b : UInt8} (hb : ∀ m ∈ httpMethods, m.head?.any (· ≠ b) = true) (rest : Bytes) :
    isHttp (b :: rest) = false := by
  rw [isHttp, List.any_eq_false]
  intro m hm
  have hhead := hb m hm
  cases m with
  | nil => simp at hhead
  | cons c tail =>
    have hne : c ≠ b := of_decide_eq_true hhead
    simp [List.isPrefixOf, hne]

omit [Crypto] in
/-- The first byte of a network magic starts no health check. -/
theorem httpMethods_magic {params : ChainParams}
    (hparams : params = mainnetParams ∨ params = testnetParams ∨ params = regtestParams) :
    ∀ m ∈ httpMethods, m.head?.any (· ≠ UInt8.ofNat params.networkMagic.toNat) = true := by
  obtain rfl | rfl | rfl := hparams <;> decide +kernel

/-- No part of a stream of frames looks like a health check. -/
theorem isHttp_of_frames {params : ChainParams}
    (hparams : params = mainnetParams ∨ params = testnetParams ∨ params = regtestParams) {messages : List CNetMessage}
    {buf : Bytes} (hbuf : buf <+: (messages.map (messageFrame params.networkMagic)).flatten) : isHttp buf = false := by
  cases buf with
  | nil => decide +kernel
  | cons b rest =>
    cases messages with
    | nil => simp at hbuf
    | cons msg messages =>
      have hfirst : b = UInt8.ofNat params.networkMagic.toNat := (List.cons_prefix_cons.mp hbuf).1
      rw [hfirst]
      exact isHttp_cons (httpMethods_magic hparams) rest

theorem mapM_buildMessage (magic : UInt32) {messages : List CNetMessage}
    (hmessages : ∀ msg ∈ messages, isKnownCommand msg.command = true ∧ msg.payload.length ≤ MAX_MESSAGE_SIZE) :
    messages.mapM (fun msg => buildMessage magic msg.command msg.payload) = some (messages.map (messageFrame magic)) := by
  induction messages with
  | nil => rfl
  | cons msg messages ih =>
    rw [List.forall_mem_cons] at hmessages
    rw [List.mapM_cons, buildMessage_of_known magic hmessages.1.1 hmessages.1.2, ih hmessages.2]
    rfl

theorem receives_frames {params : ChainParams}
    (hparams : params = mainnetParams ∨ params = testnetParams ∨ params = regtestParams) {messages : List CNetMessage}
    (hmessages : ∀ msg ∈ messages, isKnownCommand msg.command = true ∧ msg.payload.length ≤ MAX_MESSAGE_SIZE)
    {chunks : List Bytes} (hchunks : chunks.flatten = (messages.map (messageFrame params.networkMagic)).flatten) :
    Receives (parseMessage params.networkMagic) (fun buf => isHttp buf = false) [] chunks messages [] := by
  have hempty : parseMessage params.networkMagic [] = .incomplete := rfl
  apply receives_of_frames hempty _ _ hempty hchunks
  · rw [List.forall₂_map_left_iff, List.forall₂_same]
    exact fun msg hmsg => framed_messageFrame (hmessages msg hmsg).1 (hmessages msg hmsg).2
  · intro frames buf hsuffix hbuf
    obtain ⟨later, -, rfl⟩ := List.suffix_map_iff.mp hsuffix
    exact isHttp_of_frames hparams hbuf

omit [Crypto] in
theorem foldl_misbehaviorScore {onMessage : Peer W → CNetMessage → Peer W}
    (hscore : ∀ peer msg, (onMessage peer msg).misbehaviorScore = peer.misbehaviorScore) (messages : List CNetMessage)
    (peer : Peer W) : (messages.foldl onMessage peer).misbehaviorScore = peer.misbehaviorScore := by
  induction messages generalizing peer with
  | nil => rfl
  | cons msg messages ih => rw [List.foldl_cons, ih, hscore]

/-- Messages sent as frames reach the handler one by one and in order, however the stream is
    cut. No frame is left over, and only the handler can have changed the score. -/
theorem feed_frames {params : ChainParams}
    (hparams : params = mainnetParams ∨ params = testnetParams ∨ params = regtestParams) {messages : List CNetMessage}
    (hmessages : ∀ msg ∈ messages, isKnownCommand msg.command = true ∧ msg.payload.length ≤ MAX_MESSAGE_SIZE)
    (onMessage : Peer W → CNetMessage → Peer W) (peer : Peer W) :
    ∃ frames, messages.mapM (fun msg => buildMessage params.networkMagic msg.command msg.payload) = some frames ∧
      ∀ chunks : List Bytes, chunks.flatten = frames.flatten →
        feed params onMessage ⟨peer, []⟩ chunks = (messages.map .onMessage, ⟨messages.foldl onMessage peer, []⟩) ∧
          ((∀ peer msg, (onMessage peer msg).misbehaviorScore = peer.misbehaviorScore) →
            (feed params onMessage ⟨peer, []⟩ chunks).2.misbehaviorScore = peer.misbehaviorScore) := by
  refine ⟨_, mapM_buildMessage params.networkMagic hmessages, ?_⟩
  intro chunks hchunks
  have hfeed := feed_eq params onMessage (receives_frames hparams hmessages hchunks) peer
  refine ⟨hfeed, ?_⟩
  intro hscore
  rw [hfeed]
  exact foldl_misbehaviorScore hscore messages peer

end CNetServer

section

attribute [local instance] toolCrypto

def pingPong : List CNetMessage := [⟨ascii "ping", [1, 2, 3, 4, 5, 6, 7, 8]⟩, ⟨ascii "pong", []⟩]

/-- A ping and a pong, with a cut inside the header of the second. -/
theorem feed_frames_pingPong :
    ∃ frames, pingPong.mapM (fun msg => buildMessage regtestParams.networkMagic msg.command msg.payload) = some frames ∧
      CNetServer.feed regtestParams (fun peer _ => peer) ⟨⟨0, false, ()⟩, []⟩
        [frames.flatten.take 40, frames.flatten.drop 40] = (pingPong.map .onMessage, ⟨⟨0, false, ()⟩, []⟩) := by
  have hmessages : ∀ msg ∈ pingPong, isKnownCommand msg.command = true ∧ msg.payload.length ≤ MAX_MESSAGE_SIZE := by
    decide +kernel
  obtain ⟨frames, hframes, hfeed⟩ := CNetServer.feed_frames (Or.inr (Or.inr rfl)) hmessages (fun peer _ => peer)
    (⟨0, false, ()⟩ : Peer Unit)
  refine ⟨frames, hframes, (hfeed _ ?_).1⟩
  simp

end

end cdx
