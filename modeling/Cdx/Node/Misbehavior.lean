import Cdx.Blockchain.Regtest
import Cdx.Node.Messages

namespace cdx

/-! The points that messages cost a peer, and when `ProcessBuffer` cuts the peer off. -/

/-- What a message comes to: the points it costs the peer, whether it marks the peer, and the node after it. -/
structure Verdict where
  points : Int := 0
  refused : Bool := false
  node : Node

/-- The price of a payload that cannot be decoded. -/
def undecodable {α : Type} (decoded : Option α) : Int := if decoded.isNone then 10 else 0

/-- A version message that cannot be decoded or is too old. -/
def refusesVersion (payload : Bytes) : Bool :=
  match deserializeVersion payload with
  | none => true
  | some v => v.version < MIN_PROTOCOL_VERSION

def refuses (msg : CNetMessage) : Bool := msg.command = ascii "version" && refusesVersion msg.payload

/-- The peer is cut off once its score is at the limit. -/
def CNode.CutOff {W : Type} (node : CNode W) : Prop := 200 ≤ node.misbehaviorScore → node.disconnected = true

section Verdicts

variable [Crypto]

/-- A transaction that the pool does not have and `CheckTx` refuses. -/
def Node.refusesTx (node : Node) (tx : CTransaction) : Bool :=
  if node.mempool.mapTx.contains (getTxID tx) then false
  else
    match node.mempool.checkTx tx node.chain.chain.view node.chain.chain.height with
    | .error (.error _) => true
    | _ => false

variable [Memory] (params : ChainParams)

/-- A block that `TryAcceptBlock` refuses for another reason than a missing parent. -/
def Node.refusesBlock (node : Node) (blk : CBlock) : Bool :=
  match node.handleBlock params blk with
  | some (r, _) => !r.ok && !CNodeHandler.unknownPrev r.error && r.error ≠ ""
  | none => false

def judgeGetData (node : Node) (payload : Bytes) : Verdict :=
  match deserializeInv payload with
  | none => { points := 10, node }
  | some inv => { node := { node with chain := (CNodeHandler.collectData node.mempool inv node.chain).2 } }

def judgeTx (now : Int) (node : Node) (payload : Bytes) : Verdict :=
  match deserializeTransaction payload with
  | none => { points := 10, node }
  | some tx => { points := if node.refusesTx tx then 5 else 0, node := (node.handleTx tx now).getD node }

def judgeBlock (node : Node) (payload : Bytes) : Verdict :=
  match deserializeBlock payload with
  | none => { points := 10, node }
  | some blk =>
    { points := if node.refusesBlock params blk then 10 else 0
      node := ((node.handleBlock params blk).map Prod.snd).getD node }

def judgeGetHeaders (node : Node) (payload : Bytes) : Verdict :=
  match parseGetHeadersPayload payload with
  | none => { points := 10, node }
  | some (locator, hashStop) => { node := { node with chain := (node.chain.handleGetHeaders locator hashStop).2 } }

def judge (now : Int) (node : Node) (msg : CNetMessage) : Verdict :=
  if msg.command = ascii "version" then { refused := refusesVersion msg.payload, node }
  else if msg.command = ascii "verack" then { node }
  else if msg.command = ascii "inv" then { points := undecodable (deserializeInv msg.payload), node }
  else if msg.command = ascii "getdata" then judgeGetData node msg.payload
  else if msg.command = ascii "tx" then judgeTx now node msg.payload
  else if msg.command = ascii "block" then judgeBlock params node msg.payload
  else if msg.command = ascii "getheaders" then judgeGetHeaders node msg.payload
  else if msg.command = ascii "headers" then { points := undecodable (parseHeadersPayload msg.payload), node }
  else { node }

/-- The points of messages one after another, each judged by the node that the earlier ones left. -/
def demerits (now : Nat → Int) : Nat → Node → List CNetMessage → Int
  | _, _, [] => 0
  | handled, node, msg :: msgs =>
    let verdict := judge params (now (handled + 1)) node msg
    verdict.points + demerits now (handled + 1) verdict.node msgs

end Verdicts

section Dispatch

variable {α : Type}

/-- What the first command of a list that a message names stands for. -/
def dispatch (command : Bytes) (other : α) : List String → List α → α
  | name :: names, a :: as => if command = ascii name then a else dispatch command other names as
  | _, _ => other

/-- Different commands are told apart. -/
theorem dispatch_at {names : List String} (hnodup : (names.map ascii).Nodup) {as : List α} {name : String} {a : α}
    (i : Nat) (hname : names[i]? = some name) (ha : as[i]? = some a) (other : α) :
    dispatch (ascii name) other names as = a := by
  induction names generalizing as i with
  | nil => simp at hname
  | cons first names ih =>
    rw [List.map_cons, List.nodup_cons] at hnodup
    cases as with
    | nil => simp at ha
    | cons a' as =>
      cases i with
      | zero =>
        cases hname
        cases ha
        rw [dispatch, if_pos rfl]
      | succ i =>
        rw [List.getElem?_cons_succ] at hname ha
        have hother : ascii name ≠ ascii first := fun hsame =>
          hnodup.1 (hsame ▸ List.mem_map_of_mem (List.mem_of_getElem? hname))
        rw [dispatch, if_neg hother, ih hnodup.2 i hname ha]

/-- The commands that `OnMessage` knows, in its order. -/
def commands : List String :=
  ["version", "verack", "inv", "getdata", "tx", "block", "getheaders", "headers", "ping", "getaddr"]

theorem nodup_commands : (commands.map ascii).Nodup := by decide

end Dispatch

section Commands

variable [Crypto] [Memory] (params : ChainParams) (now : Int) (node : Node) (payload : Bytes)

theorem judge_eq_dispatch (msg : CNetMessage) : judge params now node msg = dispatch msg.command { node } commands
    [{ refused := refusesVersion msg.payload, node }, { node },
      { points := undecodable (deserializeInv msg.payload), node }, judgeGetData node msg.payload,
      judgeTx now node msg.payload, judgeBlock params node msg.payload, judgeGetHeaders node msg.payload,
      { points := undecodable (parseHeadersPayload msg.payload), node }] := rfl

theorem judge_version :
    judge params now node ⟨ascii "version", payload⟩ = { refused := refusesVersion payload, node } :=
  (judge_eq_dispatch ..).trans (dispatch_at nodup_commands 0 rfl rfl _)

theorem judge_verack : judge params now node ⟨ascii "verack", payload⟩ = { node } :=
  (judge_eq_dispatch ..).trans (dispatch_at nodup_commands 1 rfl rfl _)

theorem judge_getdata : judge params now node ⟨ascii "getdata", payload⟩ = judgeGetData node payload :=
  (judge_eq_dispatch ..).trans (dispatch_at nodup_commands 3 rfl rfl _)

theorem judge_block : judge params now node ⟨ascii "block", payload⟩ = judgeBlock params node payload :=
  (judge_eq_dispatch ..).trans (dispatch_at nodup_commands 5 rfl rfl _)

theorem judge_getheaders : judge params now node ⟨ascii "getheaders", payload⟩ = judgeGetHeaders node payload :=
  (judge_eq_dispatch ..).trans (dispatch_at nodup_commands 6 rfl rfl _)

theorem judge_headers : judge params now node ⟨ascii "headers", payload⟩ =
    { points := undecodable (parseHeadersPayload payload), node } :=
  (judge_eq_dispatch ..).trans (dispatch_at nodup_commands 7 rfl rfl _)

end Commands

/-- A handler keeps to a verdict. Apart from it only a write that fails marks the peer. -/
structure Handled (env : Environment) (peer after : Remote) (verdict : Verdict) : Prop where
  score : after.misbehaviorScore = peer.misbehaviorScore + verdict.points
  node : after.world.node = verdict.node
  handled : after.world.handled = peer.world.handled
  marked : peer.disconnected = true ∨ verdict.refused = true → after.disconnected = true
  unmarked : (∀ n, env.accepts n = true) → after.disconnected = true → peer.disconnected = true ∨ verdict.refused = true

section Basics

variable {env : Environment} {peer after : Remote} {verdict : Verdict}

theorem handled_refl (peer : Remote) : Handled env peer peer { node := peer.world.node } where
  score := (Int.add_zero _).symm
  node := rfl
  handled := rfl
  marked := by simp
  unmarked := by simp

theorem handled_addScore (peer : Remote) (points : Int) :
    Handled env peer (peer.addScore points) { points := points, node := peer.world.node } where
  score := rfl
  node := rfl
  handled := rfl
  marked := by simp [Peer.addScore]
  unmarked := by simp [Peer.addScore]

theorem handled_markDisconnected (peer : Remote) :
    Handled env peer peer.markDisconnected { refused := true, node := peer.world.node } where
  score := (Int.add_zero _).symm
  node := rfl
  handled := rfl
  marked := fun _ => rfl
  unmarked := fun _ _ => Or.inr rfl

theorem handled_setNode (peer : Remote) (node : Node) : Handled env peer (peer.setNode node) { node := node } where
  score := (Int.add_zero _).symm
  node := rfl
  handled := rfl
  marked := by simp [Peer.setNode]
  unmarked := by simp [Peer.setNode]

variable [Crypto] {params : ChainParams}

/-- A write to the peer keeps to any verdict. -/
theorem Handled.sendTo (hhandled : Handled env peer after verdict) (command : String) (payload : Bytes) :
    Handled env peer (CNodeHandler.sendTo params env after command payload) verdict := by
  unfold CNodeHandler.sendTo
  split
  · exact hhandled
  · split
    · exact ⟨hhandled.score, hhandled.node, hhandled.handled, hhandled.marked, hhandled.unmarked⟩
    next hfails =>
      refine ⟨hhandled.score, hhandled.node, hhandled.handled, fun _ => rfl, ?_⟩
      exact fun haccepts _ => absurd (haccepts _) hfails

theorem Handled.sendAll (hhandled : Handled env peer after verdict) (command : String) (payloads : List Bytes) :
    Handled env peer (payloads.foldl (fun peer ser => CNodeHandler.sendTo params env peer command ser) after) verdict := by
  induction payloads generalizing after with
  | nil => exact hhandled
  | cons ser payloads ih => exact ih (hhandled.sendTo command ser)

theorem Handled.relayTx (hhandled : Handled env peer after verdict) (tx : CTransaction) :
    Handled env peer (CNodeHandler.relayTx params env after tx) verdict := by
  unfold CNodeHandler.relayTx
  split
  · exact hhandled.sendTo _ _
  · exact hhandled

theorem Handled.requestHeaders (hhandled : Handled env peer after verdict) :
    Handled env peer (CNodeHandler.requestHeaders params env after) verdict := hhandled.sendTo _ _

end Basics

namespace CNodeHandler

variable [Crypto] [Memory] (params : ChainParams) (env : Environment)

omit [Memory] in
theorem handled_version (peer : Remote) (payload : Bytes) :
    Handled env peer (handleVersion params env peer payload)
      { refused := refusesVersion payload, node := peer.world.node } := by
  unfold handleVersion refusesVersion
  cases deserializeVersion payload with
  | none => exact handled_markDisconnected peer
  | some v =>
    by_cases hold : v.version < MIN_PROTOCOL_VERSION
    · simp only [hold, if_true, decide_true]
      exact handled_markDisconnected peer
    · simp only [hold, if_false, decide_false]
      have hgreeted : Handled env peer
          { peer with world := { peer.world with handshakeDone := true, theirStartHeight := v.startHeight } }
          { node := peer.world.node } :=
        ⟨(Int.add_zero _).symm, rfl, rfl, by simp, by simp⟩
      split
      · exact ((hgreeted.sendTo _ _).sendTo _ _).requestHeaders
      · exact (hgreeted.sendTo _ _).requestHeaders

omit [Memory] in
theorem handled_inv (peer : Remote) (payload : Bytes) :
    Handled env peer (handleInv params env peer payload)
      { points := undecodable (deserializeInv payload), node := peer.world.node } := by
  unfold handleInv
  cases deserializeInv payload with
  | none => exact handled_addScore peer 10
  | some inv =>
    simp only
    split
    · exact handled_refl peer
    · exact (handled_refl peer).sendTo _ _

theorem handled_getData (peer : Remote) (payload : Bytes) :
    Handled env peer (handleGetData params env peer payload) (judgeGetData peer.world.node payload) := by
  unfold handleGetData judgeGetData
  cases deserializeInv payload with
  | none => exact handled_addScore peer 10
  | some inv => exact ((handled_setNode peer _).sendAll _ _).sendAll _ _

omit [Memory] in
theorem handled_tx (peer : Remote) (payload : Bytes) :
    Handled env peer (handleTx params env peer payload)
      (judgeTx (env.now peer.world.handled) peer.world.node payload) := by
  unfold handleTx judgeTx
  cases deserializeTransaction payload with
  | none => exact handled_addScore peer 10
  | some tx =>
    simp only [Node.refusesTx, Node.handleTx, Node.admitTx]
    by_cases hknown : peer.world.node.mempool.mapTx.contains (getTxID tx)
    · simp only [hknown, if_true]
      exact handled_refl peer
    · simp only [hknown]
      cases peer.world.node.mempool.checkTx tx peer.world.node.chain.chain.view peer.world.node.chain.chain.height with
      | error reject =>
        cases reject with
        | error message => exact handled_addScore peer 5
        | overflow sum => exact handled_refl peer
      | ok fee => exact (handled_setNode peer _).relayTx tx

theorem handled_block (peer : Remote) (payload : Bytes) :
    Handled env peer (handleBlock params env peer payload) (judgeBlock params peer.world.node payload) := by
  unfold handleBlock judgeBlock
  cases deserializeBlock payload with
  | none => exact handled_addScore peer 10
  | some blk =>
    cases hresult : peer.world.node.handleBlock params blk with
    | none =>
      have hrefuses : peer.world.node.refusesBlock params blk = false := by rw [Node.refusesBlock, hresult]
      simp only [hresult, hrefuses, Option.map_none, Option.getD_none, Bool.false_eq_true, if_false]
      exact handled_refl peer
    | some result =>
      obtain ⟨r, node⟩ := result
      have hrefuses : peer.world.node.refusesBlock params blk = (!r.ok && !unknownPrev r.error && r.error ≠ "") := by
        rw [Node.refusesBlock, hresult]
      have hmoved : Handled env peer (peer.setNode node) { node := node } := handled_setNode peer node
      simp only [hresult, hrefuses, Option.map_some, Option.getD_some]
      by_cases hok : r.ok = true
      · simp only [hok, if_true, Bool.not_true, Bool.false_and, Bool.false_eq_true, if_false]
        split
        · exact hmoved.requestHeaders
        · exact hmoved
      · by_cases hprev : unknownPrev r.error = true
        · simp only [hok, hprev, if_true, if_false, Bool.not_true, Bool.and_false, Bool.false_and, Bool.false_eq_true]
          exact hmoved.requestHeaders
        · by_cases hempty : r.error = ""
          · simp only [hok, hempty, ne_eq, not_true_eq_false, decide_false, Bool.and_false, Bool.false_eq_true, if_false]
            exact hmoved
          · simp only [hok, hprev, hempty, ne_eq, not_false_eq_true, decide_true, Bool.not_false, Bool.and_true, if_true]
            exact ⟨rfl, hmoved.node, hmoved.handled, hmoved.marked, hmoved.unmarked⟩

theorem handled_getHeaders (peer : Remote) (payload : Bytes) :
    Handled env peer (handleGetHeaders params env peer payload) (judgeGetHeaders peer.world.node payload) := by
  unfold handleGetHeaders judgeGetHeaders
  cases parseGetHeadersPayload payload with
  | none => exact handled_addScore peer 10
  | some request =>
    obtain ⟨locator, hashStop⟩ := request
    simp only
    cases peer.world.node.chain.handleGetHeaders locator hashStop with
    | mk out chain => exact (handled_setNode peer _).sendTo _ _

omit [Memory] in
theorem handled_headers (peer : Remote) (payload : Bytes) :
    Handled env peer (handleHeaders params env peer payload)
      { points := undecodable (parseHeadersPayload payload), node := peer.world.node } := by
  unfold handleHeaders
  cases parseHeadersPayload payload with
  | none => exact handled_addScore peer 10
  | some headers =>
    have hsame : Handled env peer peer { node := peer.world.node } := handled_refl peer
    simp only
    split
    · exact hsame
    · split
      · split
        · exact hsame.requestHeaders
        · exact (hsame.sendTo _ _).requestHeaders
      · split
        · exact hsame
        · exact hsame.sendTo _ _

/-- Every message is dealt with as the verdict says. -/
theorem handled_onMessage (peer : Remote) (msg : CNetMessage) :
    Handled env peer.countMessage (onMessage params env peer msg)
      (judge params (env.now (peer.world.handled + 1)) peer.world.node msg) := by
  unfold onMessage judge
  simp only
  split_ifs
  · exact handled_version params env peer.countMessage msg.payload
  · exact ⟨(Int.add_zero _).symm, rfl, rfl, by simp, by simp⟩
  · exact handled_inv params env peer.countMessage msg.payload
  · exact handled_getData params env peer.countMessage msg.payload
  · exact handled_tx params env peer.countMessage msg.payload
  · exact handled_block params env peer.countMessage msg.payload
  · exact handled_getHeaders params env peer.countMessage msg.payload
  · exact handled_headers params env peer.countMessage msg.payload
  · exact (handled_refl peer.countMessage).sendTo _ _
  · exact (handled_refl peer.countMessage).sendTo _ _
  · exact handled_refl peer.countMessage

end CNodeHandler

section Runs

variable [Crypto] [Memory] (params : ChainParams)

theorem refused_judge (now : Int) (node : Node) (msg : CNetMessage) : (judge params now node msg).refused = refuses msg := by
  unfold judge refuses
  by_cases hversion : msg.command = ascii "version"
  · simp [hversion]
  · simp only [hversion, if_false, decide_false, Bool.false_and]
    unfold judgeGetData judgeTx judgeBlock judgeGetHeaders
    split_ifs <;> first | rfl | (split <;> rfl)

variable (env : Environment)

/-- The score after messages is the score before them and what they cost. -/
theorem foldl_score (msgs : List CNetMessage) (peer : Remote) :
    (msgs.foldl (CNodeHandler.onMessage params env) peer).misbehaviorScore =
      peer.misbehaviorScore + demerits params env.now peer.world.handled peer.world.node msgs := by
  induction msgs generalizing peer with
  | nil => exact (Int.add_zero _).symm
  | cons msg msgs ih =>
    have hhandled := CNodeHandler.handled_onMessage params env peer msg
    have hcount : (CNodeHandler.onMessage params env peer msg).world.handled = peer.world.handled + 1 := hhandled.handled
    have hscore : (CNodeHandler.onMessage params env peer msg).misbehaviorScore = peer.misbehaviorScore +
        (judge params (env.now (peer.world.handled + 1)) peer.world.node msg).points := hhandled.score
    rw [List.foldl_cons, ih, hcount, hhandled.node, hscore, demerits, Int.add_assoc]

/-- A peer that was marked, or sends a version that is refused, is marked after the messages. -/
theorem foldl_marked (msgs : List CNetMessage) (peer : Remote)
    (hmarked : peer.disconnected = true ∨ ∃ msg ∈ msgs, refuses msg = true) :
    (msgs.foldl (CNodeHandler.onMessage params env) peer).disconnected = true := by
  induction msgs generalizing peer with
  | nil => simpa using hmarked
  | cons msg msgs ih =>
    have hhandled := CNodeHandler.handled_onMessage params env peer msg
    have hmark : peer.disconnected = true ∨ refuses msg = true →
        (CNodeHandler.onMessage params env peer msg).disconnected = true := by
      rw [← refused_judge params (env.now (peer.world.handled + 1)) peer.world.node msg]
      exact hhandled.marked
    apply ih
    obtain hbefore | ⟨later, hlater, hrefused⟩ := hmarked
    · exact Or.inl (hmark (Or.inl hbefore))
    · obtain rfl | hlater := List.mem_cons.mp hlater
      · exact Or.inl (hmark (Or.inr hrefused))
      · exact Or.inr ⟨later, hlater, hrefused⟩

/-- Where every write goes through, nothing else marks the peer. -/
theorem foldl_unmarked (haccepts : ∀ n, env.accepts n = true) (msgs : List CNetMessage) (peer : Remote)
    (hmarked : (msgs.foldl (CNodeHandler.onMessage params env) peer).disconnected = true) :
    peer.disconnected = true ∨ ∃ msg ∈ msgs, refuses msg = true := by
  induction msgs generalizing peer with
  | nil => exact Or.inl hmarked
  | cons msg msgs ih =>
    obtain hnow | ⟨later, hlater, hrefused⟩ := ih _ hmarked
    · have hunmarked := (CNodeHandler.handled_onMessage params env peer msg).unmarked haccepts hnow
      rw [refused_judge] at hunmarked
      exact hunmarked.imp id fun hrefused => ⟨msg, List.mem_cons_self, hrefused⟩
    · exact Or.inr ⟨later, List.mem_cons_of_mem msg hlater, hrefused⟩

end Runs

section CutOff

open framing CNetServer CNodeHandler

variable [Crypto] [Memory] (params : ChainParams)

omit [Memory] in
/-- A malformed frame is the one place where the limit is tested. -/
theorem cutOff_of_invalid {W : Type} {onMessage : Peer W → CNetMessage → Peer W} {node : CNode W}
    (hparse : parseMessage params.networkMagic node.recvBuffer = .invalid) :
    (processLoop params onMessage node).2.CutOff := by
  intro hlimit
  rw [(processLoop_of_invalid hparse).1] at hlimit
  rw [(processLoop_of_invalid hparse).2, if_pos hlimit]

/-- What has to hold of a peer and its buffer for the limit to be kept whatever becomes of the writes.
    The messages are those in front of the first frame that is malformed or cut short. -/
def KeepsLimit (now : Nat → Int) (node : CNode Connection) : Prop :=
  isHttp node.recvBuffer = true ∨ ∃ msgs left, Splits (parseMessage params.networkMagic) node.recvBuffer msgs left ∧
    (parseMessage params.networkMagic left = .invalid ∨ parseMessage params.networkMagic left = .incomplete ∧
      (node.disconnected = true ∨ (∃ msg ∈ msgs, refuses msg = true) ∨
        node.misbehaviorScore + demerits params now node.world.handled node.world.node msgs < 200))

/-- The node after `ProcessBuffer`. -/
def received (env : Environment) (node : CNode Connection) : CNode Connection :=
  (processBuffer params (onMessage params env) node).2

/-- The buffer without a malformed frame: the messages are handled and nothing looks at the score. -/
theorem received_of_incomplete (env : Environment) {node : CNode Connection} {msgs : List CNetMessage} {left : Bytes}
    (hhttp : isHttp node.recvBuffer = false)
    (hsplits : Splits (parseMessage params.networkMagic) node.recvBuffer msgs left)
    (hparse : parseMessage params.networkMagic left = .incomplete) :
    received params env node = ⟨msgs.foldl (onMessage params env) node.toPeer, left⟩ := by
  rw [received, processBuffer, hhttp, if_neg Bool.false_ne_true, processLoop_splits params _ hsplits node.toPeer,
    processLoop_of_incomplete hparse]

theorem received_cutOff_of_invalid (env : Environment) {node : CNode Connection} {msgs : List CNetMessage} {left : Bytes}
    (hhttp : isHttp node.recvBuffer = false)
    (hsplits : Splits (parseMessage params.networkMagic) node.recvBuffer msgs left)
    (hparse : parseMessage params.networkMagic left = .invalid) : (received params env node).CutOff := by
  rw [received, processBuffer, hhttp, if_neg Bool.false_ne_true, processLoop_splits params _ hsplits node.toPeer]
  exact cutOff_of_invalid params hparse

/-- `ProcessBuffer` cuts off every peer at the limit, whatever becomes of the writes, just if the buffer
    ends in a malformed frame, the peer is marked for another reason, or the messages leave it below
    the limit. -/
theorem received_cutOff_iff (now : Nat → Int) (peerCount : Nat → Nat) (node : CNode Connection) :
    (∀ accepts : Nat → Bool, (received params ⟨accepts, now, peerCount⟩ node).CutOff) ↔ KeepsLimit params now node := by
  cases hhttp : isHttp node.recvBuffer with
  | true =>
    refine iff_of_true ?_ (Or.inl hhttp)
    intro accepts _
    rw [received, processBuffer, hhttp, if_pos rfl]
  | false =>
    constructor
    · intro hcut
      obtain ⟨msgs, left, hsplits, hparse | hparse⟩ := exists_splits
        (fun _ _ _ hparse => (parseMessage_consumed hparse).imp_left (by omega)) node.recvBuffer
      · refine Or.inr ⟨msgs, left, hsplits, Or.inr ⟨hparse, ?_⟩⟩
        -- With writes that go through, the flag can only come from before or from a version.
        have hrun := hcut fun _ => true
        rw [received_of_incomplete params _ hhttp hsplits hparse] at hrun
        obtain hbelow | hlimit := lt_or_ge
          (node.misbehaviorScore + demerits params now node.world.handled node.world.node msgs) 200
        · exact Or.inr (Or.inr hbelow)
        · rw [← foldl_score params ⟨fun _ => true, now, peerCount⟩ msgs node.toPeer] at hlimit
          obtain hbefore | hrefused := foldl_unmarked params _ (fun _ => rfl) msgs node.toPeer (hrun hlimit)
          · exact Or.inl hbefore
          · exact Or.inr (Or.inl hrefused)
      · exact Or.inr ⟨msgs, left, hsplits, Or.inl hparse⟩
    · rintro (hrequest | ⟨msgs, left, hsplits, hparse | ⟨hparse, hkeeps⟩⟩) accepts
      · rw [hhttp] at hrequest
        cases hrequest
      · exact received_cutOff_of_invalid params _ hhttp hsplits hparse
      · rw [received_of_incomplete params _ hhttp hsplits hparse]
        intro hlimit
        obtain hbefore | hrefused | hbelow := hkeeps
        · exact foldl_marked params _ msgs node.toPeer (Or.inl hbefore)
        · exact foldl_marked params _ msgs node.toPeer (Or.inr hrefused)
        · have hscore : (msgs.foldl (onMessage params ⟨accepts, now, peerCount⟩) node.toPeer).misbehaviorScore < 200 := by
            rw [foldl_score]
            exact hbelow
          exact absurd hlimit (not_le.mpr hscore)

end CutOff

section

open CNetServer CNodeHandler

attribute [local instance] toolCrypto zeroMemory

/-- An inventory without even its count. -/
def blankInv : CNetMessage := ⟨ascii "inv", []⟩

def blankInvs : List CNetMessage := List.replicate 20 blankInv

theorem demerits_blankInvs (now : Nat → Int) (n handled : Nat) (node : Node) :
    demerits regtestParams now handled node (List.replicate n blankInv) = 10 * n := by
  induction n generalizing handled with
  | zero => rfl
  | succ n ih =>
    have hjudge : judge regtestParams (now (handled + 1)) node blankInv = { points := 10, node } := rfl
    rw [List.replicate_succ, demerits, hjudge]
    simp only [ih]
    omega

theorem refuses_blankInvs : ¬ ∃ msg ∈ blankInvs, refuses msg = true := by decide +kernel

/-- The writes all go through. -/
def openEnvironment : Environment := ⟨fun _ => true, fun _ => 0, fun _ => 1⟩

/-- A peer that has just connected to a node, with twenty inventories in its buffer. -/
def blankPeer (start : CBlockchain) : CNode Connection :=
  ⟨⟨0, false, { node := { chain := start } }⟩, (blankInvs.map (messageFrame regtestParams.networkMagic)).flatten⟩

theorem received_blankPeer (start : CBlockchain) :
    received regtestParams openEnvironment (blankPeer start) =
      ⟨blankInvs.foldl (onMessage regtestParams openEnvironment) (blankPeer start).toPeer, []⟩ := by
  have hmessages : ∀ msg ∈ blankInvs, isKnownCommand msg.command = true ∧ msg.payload.length ≤ MAX_MESSAGE_SIZE := by
    decide +kernel
  rw [received, blankPeer, ← feed_singleton, feed_eq regtestParams _
    (receives_frames (Or.inr (Or.inr rfl)) hmessages List.flatten_singleton)]

/-- Twenty inventories that cannot be decoded take a fresh peer to the limit. It is not cut off. -/
theorem received_cutOff_fails_blankPeer : ∃ start, CBlockchain.fresh regtestParams = some start ∧
    ¬ (received regtestParams openEnvironment (blankPeer start)).CutOff := by
  obtain ⟨start, -, hfresh, -⟩ := regtestAfter_extended
  refine ⟨start, hfresh, ?_⟩
  rw [received_blankPeer]
  intro hcut
  have hscore := foldl_score regtestParams openEnvironment blankInvs (blankPeer start).toPeer
  rw [blankInvs, demerits_blankInvs] at hscore
  have hlimit : 200 ≤ (blankInvs.foldl (onMessage regtestParams openEnvironment) (blankPeer start).toPeer).misbehaviorScore :=
    le_of_eq hscore.symm
  obtain hbefore | hrefused := foldl_unmarked regtestParams openEnvironment (fun _ => rfl) blankInvs _ (hcut hlimit)
  · cases hbefore
  · exact refuses_blankInvs hrefused

end

end cdx
