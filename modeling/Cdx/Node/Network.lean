import Cdx.Blockchain.Reads
import Cdx.Lib.Simulation
import Cdx.Node.Misbehavior

namespace cdx

/-! The node with all its connections: chunks arrive on any of them at any time, every connection takes
    the messages out of its own buffer, and the handlers work on the one node, a message at a time. -/

section Carried

/-- What a message brings to the node: a transaction or a block, if its payload can be decoded. -/
def carried (now : Int) (msg : CNetMessage) : List NodeEvent :=
  if msg.command = ascii "tx" then ((deserializeTransaction msg.payload).map fun tx => NodeEvent.tx tx now).toList
  else if msg.command = ascii "block" then ((deserializeBlock msg.payload).map NodeEvent.block).toList
  else []

/-- The node is as before, up to a loaded storage index. -/
def Node.Touched [Memory] (node node' : Node) : Prop :=
  CBlockchain.Touched node.chain node'.chain ∧ node'.mempool = node.mempool

theorem Node.touched_refl [Memory] (node : Node) : node.Touched node := ⟨Or.inl rfl, rfl⟩

theorem Node.Touched.trans [Memory] {a b c : Node} (hab : a.Touched b) (hbc : b.Touched c) : a.Touched c :=
  ⟨hab.1.trans hbc.1, hbc.2.trans hab.2⟩

variable [Crypto] [Memory]

theorem collectData_touched (pool : CTxMemPool) (inv : List CInv) (bc : CBlockchain) :
    CBlockchain.Touched bc (CNodeHandler.collectData pool inv bc).2 := by
  induction inv generalizing bc with
  | nil => exact Or.inl rfl
  | cons i rest ih =>
    rw [CNodeHandler.collectData]
    split
    · cases pool.mapTx[i.hash]? with
      | none => exact ih bc
      | some entry => exact ih bc
    · split
      · have hread : CBlockchain.Touched bc (bc.readBlock i.hash).2 := Or.inr rfl
        cases hblk : bc.readBlock i.hash with
        | mk blk mid =>
          rw [hblk] at hread
          cases blk with
          | none => exact hread.trans (ih mid)
          | some blk => exact hread.trans (ih mid)
      · exact ih bc

theorem collectHeaders_touched (hashStop : UInt256) (room : Nat) (h : Int) (bc : CBlockchain) :
    CBlockchain.Touched bc (CBlockchain.collectHeaders hashStop room h bc).2 := by
  induction room generalizing h bc with
  | zero => exact Or.inl rfl
  | succ room ih =>
    have hread : CBlockchain.Touched bc (bc.getBlockByHeight h).2 := by
      unfold CBlockchain.getBlockByHeight
      split
      · exact Or.inl rfl
      · exact CBlockchain.readAt_snd bc _
    rw [CBlockchain.collectHeaders]
    split
    · cases hblk : bc.getBlockByHeight h with
      | mk blk mid =>
        rw [hblk] at hread
        cases blk with
        | none => exact hread
        | some blk =>
          simp only
          split
          · exact hread
          · exact hread.trans (ih (h + 1) mid)
    · exact Or.inl rfl

/-- A message changes the node by the event it carries, or leaves it as it is up to a read. -/
theorem judge_node (params : ChainParams) (now : Int) (node : Node) (msg : CNetMessage) :
    node.Touched (judge params now node msg).node ∨
      ∃ event ∈ carried now msg, node.step params event = some (judge params now node msg).node := by
  unfold judge
  split
  · exact Or.inl node.touched_refl
  split
  · exact Or.inl node.touched_refl
  split
  · exact Or.inl node.touched_refl
  split
  · unfold judgeGetData
    cases deserializeInv msg.payload with
    | none => exact Or.inl node.touched_refl
    | some inv => exact Or.inl ⟨collectData_touched node.mempool inv node.chain, rfl⟩
  split
  next htx =>
    unfold judgeTx carried
    rw [if_pos htx]
    cases deserializeTransaction msg.payload with
    | none => exact Or.inl node.touched_refl
    | some tx =>
      simp only
      cases hhandled : node.handleTx tx now with
      | none => exact Or.inl node.touched_refl
      | some node' =>
        obtain rfl | hstep := Node.step_of_handleTx params hhandled
        · exact Or.inl node'.touched_refl
        · exact Or.inr ⟨.tx tx now, List.mem_singleton.mpr rfl, hstep⟩
  next htx =>
  split
  next hblock =>
    unfold judgeBlock carried
    rw [if_neg htx, if_pos hblock]
    cases deserializeBlock msg.payload with
    | none => exact Or.inl node.touched_refl
    | some blk =>
      simp only
      cases hhandled : node.handleBlock params blk with
      | none => exact Or.inl node.touched_refl
      | some result =>
        obtain ⟨r, node'⟩ := result
        obtain rfl | hstep := Node.step_of_handleBlock hhandled
        · exact Or.inl node'.touched_refl
        · exact Or.inr ⟨.block blk, List.mem_singleton.mpr rfl, hstep⟩
  split
  · unfold judgeGetHeaders
    cases parseGetHeadersPayload msg.payload with
    | none => exact Or.inl node.touched_refl
    | some request => exact Or.inl ⟨collectHeaders_touched _ _ _ _, rfl⟩
  split
  · exact Or.inl node.touched_refl
  · exact Or.inl node.touched_refl

/-- An event does the same to a node after a read. -/
theorem Node.step_touched {params : ChainParams} {node touched touched' : Node} {event : NodeEvent}
    {active : List CBlock} (hactive : Active params node.chain active) (htouched : node.Touched touched)
    (hstep : touched.step params event = some touched') :
    ∃ node', node.step params event = some node' ∧ node'.Touched touched' := by
  obtain ⟨hchain, hpool⟩ := htouched
  cases event with
  | tx tx now =>
    have hsame : touched.admitTx tx now = (node.admitTx tx now).map fun node' => { node' with chain := touched.chain } := by
      unfold Node.admitTx
      rw [hchain.chain_eq, hpool]
      simp only
      cases node.mempool.checkTx tx node.chain.chain.view node.chain.chain.height with
      | ok fee => rfl
      | error reject =>
        cases reject with
        | error message => exact congrArg some (congrArg (Node.mk touched.chain) hpool)
        | overflow sum => rfl
    obtain ⟨node', hnode, rfl⟩ := Option.map_eq_some_iff.mp (hsame.symm.trans hstep)
    refine ⟨node', hnode, ?_, rfl⟩
    obtain rfl | ⟨fee, -, rfl⟩ := admitTx_eq_some hnode
    · exact hchain
    · exact hchain
  | block blk =>
    obtain ⟨⟨r, _⟩, haccepted, rfl⟩ := Option.map_eq_some_iff.mp hstep
    obtain ⟨haccept, hpool'⟩ := acceptBlock_eq_some haccepted
    obtain ⟨chain', hplain, hchain'⟩ : ∃ chain', CBlockchain.tryAcceptBlock params blk node.chain = .ok (r, chain') ∧
        CBlockchain.Touched chain' _ := by
      obtain hsame | hsame := hchain
      · rw [hsame] at haccept
        exact ⟨_, haccept, Or.inl rfl⟩
      · rw [hsame] at haccept
        exact hactive.tryAcceptBlock_touch haccept
    rw [hchain'.chain_eq, hpool] at hpool'
    cases hok : r.ok with
    | true =>
      rw [hok, if_pos rfl] at hpool'
      refine ⟨{ chain := chain', mempool := (node.mempool.removeSpent chain'.chain.view chain'.chain.height).2 }, ?_,
        hchain', hpool'⟩
      simp only [Node.step, Node.acceptBlock, hplain, hok, if_true, Option.map_some]
    | false =>
      rw [hok, if_neg Bool.false_ne_true] at hpool'
      refine ⟨{ node with chain := chain' }, ?_, hchain', hpool'⟩
      simp only [Node.step, Node.acceptBlock, hplain, hok, Bool.false_eq_true, if_false, Option.map_some]

end Carried

/-- One round of the loop of `ProcessBuffer`, and whether there is another one. -/
def CNetServer.processRound [Crypto] {W : Type} (params : ChainParams) (onMessage : Peer W → CNetMessage → Peer W)
    (node : CNode W) : Bool × CNode W :=
  match parseMessage params.networkMagic node.recvBuffer with
  | .incomplete => (false, node)
  | .invalid =>
    let score := node.misbehaviorScore + 100
    (false, { node with
      misbehaviorScore := score, recvBuffer := [], disconnected := if score ≥ 200 then true else node.disconnected })
  | .complete msg consumed =>
    (true, { toPeer := onMessage node.toPeer msg, recvBuffer := node.recvBuffer.drop consumed })

section Rounds

variable [Crypto] {W : Type} (params : ChainParams) (onMessage : Peer W → CNetMessage → Peer W) (node : CNode W)

/-- The loop is its first round and, if there is one, the loop from there. -/
theorem CNetServer.processLoop_round : (processLoop params onMessage node).2 =
    if (processRound params onMessage node).1 then (processLoop params onMessage (processRound params onMessage node).2).2
    else (processRound params onMessage node).2 := by
  rw [processLoop]
  unfold processRound
  split
  next hparse => simp [hparse]
  next hparse => simp [hparse]
  next msg consumed hparse => simp [hparse]

/-- A round that is not the last one takes a message out of the buffer. -/
theorem CNetServer.length_processRound (hmore : (processRound params onMessage node).1 = true) :
    (processRound params onMessage node).2.recvBuffer.length < node.recvBuffer.length := by
  unfold processRound at hmore ⊢
  split
  next hparse => simp [hparse] at hmore
  next hparse => simp [hparse] at hmore
  next msg consumed hparse =>
    obtain ⟨hlow, hhigh⟩ := parseMessage_consumed hparse
    rw [List.length_drop]
    omega

end Rounds

/-- A connection, and whether its thread is inside `ProcessBuffer`. -/
structure Link where
  peer : CNode Connection
  busy : Bool := false

structure Network where
  node : Node
  links : Std.ExtTreeMap Nat Link := ∅

/-- The limit on connections. -/
def MAX_PEERS : Nat := 32

/-- What happens to a node: a connection is accepted or made, with the outcome of the first write to it;
    a chunk arrives; a thread does one round of `ProcessBuffer`; a write of a broadcast fails; a thread
    ends; or the miner or the RPC server hands the node a block or a transaction. -/
inductive NetEvent where
  | join (fd : Nat) (inbound greeted : Bool)
  | receive (fd : Nat) (chunk : Bytes)
  | round (fd : Nat) (env : Environment)
  | fail (fd : Nat)
  | leave (fd : Nat)
  | inner (event : NodeEvent)

/-- A connection as `AcceptLoop` and `ConnectTo` put it into the table. Only an outbound one is greeted. -/
def Link.fresh (node : Node) (inbound greeted : Bool) : Link where
  peer := ⟨⟨0, !inbound && !greeted, { node := node, inbound := inbound }⟩, []⟩

/-- A chunk is added to the buffer; then `ProcessBuffer` is entered, and left at once for a health check. -/
def Link.receive (link : Link) (chunk : Bytes) : Link :=
  let buf := link.peer.recvBuffer ++ chunk
  if isHttp buf then { peer := { link.peer with recvBuffer := buf, disconnected := true }, busy := false }
  else { peer := { link.peer with recvBuffer := buf }, busy := true }

/-- The connection with the node as it is now. -/
def Link.attach (link : Link) (node : Node) : CNode Connection := { link.peer with toPeer := link.peer.toPeer.setNode node }

namespace Network

variable [Crypto] [Memory] (params : ChainParams)

def step (net : Network) : NetEvent → Option Network
  | .join fd inbound greeted =>
    if net.links.contains fd then none
    else if net.links.size ≥ MAX_PEERS then some net
    else some { net with links := net.links.insert fd (Link.fresh net.node inbound greeted) }
  | .receive fd chunk =>
    match net.links[fd]? with
    | some link =>
      if link.busy || link.peer.disconnected then none
      else some { net with links := net.links.insert fd (link.receive chunk) }
    | none => none
  | .round fd env =>
    match net.links[fd]? with
    | some link =>
      if link.busy then
        let (more, peer) := CNetServer.processRound params (CNodeHandler.onMessage params env) (link.attach net.node)
        some { node := peer.world.node, links := net.links.insert fd { peer := peer, busy := more } }
      else none
    | none => none
  | .fail fd =>
    match net.links[fd]? with
    | some link =>
      some { net with
        links := net.links.insert fd { link with peer := { link.peer with disconnected := true } } }
    | none => none
  | .leave fd =>
    match net.links[fd]? with
    | some link => if link.busy then none else some { net with links := net.links.erase fd }
    | none => none
  | .inner event => (net.node.step params event).map fun node => { net with node := node }

/-- The transactions and blocks that an event brings to the node. -/
def carries (net : Network) : NetEvent → List NodeEvent
  | .round fd env =>
    match net.links[fd]? with
    | some link =>
      match parseMessage params.networkMagic link.peer.recvBuffer with
      | .complete msg _ => carried (env.now (link.peer.world.handled + 1)) msg
      | _ => []
    | none => []
  | .inner event => [event]
  | _ => []

/-- One event changes the node by what it carries, or not at all up to a read. -/
theorem step_node {net net' : Network} {event : NetEvent} (hstep : net.step params event = some net') :
    net.node.Touched net'.node ∨
      ∃ inner ∈ net.carries params event, net.node.step params inner = some net'.node := by
  cases event with
  | join fd inbound greeted =>
    simp only [step] at hstep
    split at hstep
    · cases hstep
    · split at hstep
      · cases hstep
        exact Or.inl net.node.touched_refl
      · cases hstep
        exact Or.inl net.node.touched_refl
  | receive fd chunk =>
    simp only [step] at hstep
    split at hstep
    · split at hstep
      · cases hstep
      · cases hstep
        exact Or.inl net.node.touched_refl
    · cases hstep
  | round fd env =>
    simp only [step, carries] at hstep ⊢
    cases hlink : net.links[fd]? with
    | none =>
      rw [hlink] at hstep
      cases hstep
    | some link =>
      simp only [hlink] at hstep ⊢
      split at hstep
      · cases hstep
        unfold CNetServer.processRound
        have hbuffer : (link.attach net.node).recvBuffer = link.peer.recvBuffer := rfl
        simp only [hbuffer]
        cases parseMessage params.networkMagic link.peer.recvBuffer with
        | incomplete => exact Or.inl net.node.touched_refl
        | invalid => exact Or.inl net.node.touched_refl
        | complete msg consumed =>
          simp only
          rw [(CNodeHandler.handled_onMessage params env (link.attach net.node).toPeer msg).node]
          exact judge_node params _ net.node msg
      · cases hstep
  | fail fd =>
    simp only [step] at hstep
    split at hstep
    · cases hstep
      exact Or.inl net.node.touched_refl
    · cases hstep
  | leave fd =>
    simp only [step] at hstep
    split at hstep
    · split at hstep
      · cases hstep
      · cases hstep
        exact Or.inl net.node.touched_refl
    · cases hstep
  | inner event =>
    obtain ⟨node, hnode, rfl⟩ := Option.map_eq_some_iff.mp hstep
    exact Or.inr ⟨event, List.mem_singleton.mpr rfl, hnode⟩

omit [Crypto] [Memory] in
theorem insert_insert (links : Std.ExtTreeMap Nat Link) (fd : Nat) (link link' : Link) :
    (links.insert fd link).insert fd link' = links.insert fd link' := by
  apply Std.ExtTreeMap.ext_getElem?
  intro query
  rw [orderedMap.lookup_insert, orderedMap.lookup_insert, orderedMap.lookup_insert]
  split <;> rfl

/-- The node before the first connection. -/
def idle (start : CBlockchain) : Network := { node := { chain := start } }

/-- A thread that is left alone does in its rounds what `ProcessBuffer` does in its loop. -/
theorem rounds_eq_processLoop {net : Network} {fd : Nat} {link : Link} (env : Environment)
    (hlink : net.links[fd]? = some link) (hbusy : link.busy = true) {final : CNode Connection}
    (hfinal : (CNetServer.processLoop params (CNodeHandler.onMessage params env) (link.attach net.node)).2 = final) :
    ∃ rounds, transition.run (step params) net (List.replicate rounds (.round fd env)) =
      some { node := final.world.node, links := net.links.insert fd { peer := final } } := by
  -- Every round but the last one makes the buffer shorter.
  induction hlength : link.peer.recvBuffer.length using Nat.strong_induction_on generalizing net link with
  | _ length ih =>
    rw [CNetServer.processLoop_round] at hfinal
    cases hround : CNetServer.processRound params (CNodeHandler.onMessage params env) (link.attach net.node) with
    | mk more peer =>
      have hfirst : step params net (.round fd env) =
          some { node := peer.world.node, links := net.links.insert fd { peer := peer, busy := more } } := by
        simp only [step, hlink, hbusy, if_true, hround]
      rw [hround] at hfinal
      cases more with
      | false =>
        refine ⟨1, ?_⟩
        rw [List.replicate_one, transition.run_singleton, hfirst]
        cases hfinal
        rfl
      | true =>
        have hshorter := CNetServer.length_processRound params (CNodeHandler.onMessage params env) (link.attach net.node)
        rw [hround] at hshorter
        let next : Network := { node := peer.world.node, links := net.links.insert fd { peer := peer, busy := true } }
        have hnext : next.links[fd]? = some { peer := peer, busy := true } := Std.ExtTreeMap.getElem?_insert_self
        obtain ⟨rounds, hrun⟩ := ih peer.recvBuffer.length (hlength ▸ hshorter rfl) hnext rfl hfinal rfl
        refine ⟨rounds + 1, ?_⟩
        rw [List.replicate_succ, transition.run, hfirst]
        refine hrun.trans (congrArg some ?_)
        rw [insert_insert]

/-- Every connection is counted against the limit. -/
theorem step_size {net net' : Network} {event : NetEvent} (hsize : net.links.size ≤ MAX_PEERS)
    (hstep : net.step params event = some net') : net'.links.size ≤ MAX_PEERS := by
  have hkept : ∀ fd link link', net.links[fd]? = some link → (net.links.insert fd link').size ≤ MAX_PEERS := by
    intro fd link link' hlink
    have hmember : net.links.contains fd = true := by rw [Std.ExtTreeMap.contains_eq_isSome_getElem?, hlink, Option.isSome_some]
    rw [Std.ExtTreeMap.size_insert, if_pos hmember]
    exact hsize
  cases event with
  | join fd inbound greeted =>
    simp only [step] at hstep
    split at hstep
    · cases hstep
    · split at hstep
      · cases hstep
        exact hsize
      · cases hstep
        have hinsert := Std.ExtTreeMap.size_insert_le (t := net.links) (k := fd) (v := Link.fresh net.node inbound greeted)
        simp only
        omega
  | receive fd chunk =>
    simp only [step] at hstep
    split at hstep
    next link hlink =>
      split at hstep
      · cases hstep
      · cases hstep
        exact hkept fd link _ hlink
    · cases hstep
  | round fd env =>
    simp only [step] at hstep
    split at hstep
    next link hlink =>
      split at hstep
      · cases hstep
        exact hkept fd link _ hlink
      · cases hstep
    · cases hstep
  | fail fd =>
    simp only [step] at hstep
    split at hstep
    next link hlink =>
      cases hstep
      exact hkept fd link _ hlink
    · cases hstep
  | leave fd =>
    simp only [step] at hstep
    split at hstep
    · split at hstep
      · cases hstep
      · cases hstep
        exact Std.ExtTreeMap.size_erase_le.trans hsize
    · cases hstep
  | inner event =>
    obtain ⟨node, -, rfl⟩ := Option.map_eq_some_iff.mp hstep
    exact hsize

/-- A node that some events led to, and the network over it. -/
def Follows (node : Node) (net : Network) : Prop :=
  (∃ active, Active params node.chain active) ∧ node.Touched net.node ∧ net.links.size ≤ MAX_PEERS

theorem follows_idle {start : CBlockchain} (hfresh : CBlockchain.fresh params = some start) :
    Follows params { chain := start } (idle start) := by
  obtain ⟨g, view, fees, -, -, -, hactive⟩ := fresh_active hfresh
  refine ⟨⟨[g], hactive⟩, Node.touched_refl _, ?_⟩
  rw [idle, Std.ExtTreeMap.size_empty]
  exact Nat.zero_le _

/-- One event of the network is at most one of the events it carries. -/
theorem Follows.step {node : Node} {net net' : Network} {event : NetEvent} (hfollows : Follows params node net)
    (hstep : net.step params event = some net') :
    ∃ node' inner, inner.Sublist (net.carries params event) ∧
      transition.run (Node.step params) node inner = some node' ∧ Follows params node' net' := by
  obtain ⟨⟨active, hactive⟩, htouched, hsize⟩ := hfollows
  have hsize' := step_size params hsize hstep
  obtain hread | ⟨inner, hinner, hnode⟩ := step_node params hstep
  · exact ⟨node, [], List.nil_sublist _, rfl, ⟨active, hactive⟩, htouched.trans hread, hsize'⟩
  · obtain ⟨node', hnode', htouched'⟩ := Node.step_touched hactive htouched hnode
    refine ⟨node', [inner], List.singleton_sublist.mpr hinner, ?_, ?_, htouched', hsize'⟩
    · rw [transition.run_singleton, hnode']
    · exact Node.step_active ⟨active, hactive⟩ hnode'

/-- Whatever bytes any number of peers send, in whatever order, the node is where some of the transactions
    and blocks that arrived would have led it one after another. -/
theorem run_refines {start : CBlockchain} {final : Network} {events : List NetEvent}
    (hfresh : CBlockchain.fresh params = some start)
    (hrun : transition.run (step params) (idle start) events = some final) :
    ∃ node inner, inner.Sublist (transition.emitted (step params) (carries params) (idle start) events) ∧
      transition.run (Node.step params) { chain := start } inner = some node ∧ node.Touched final.node := by
  obtain ⟨node, inner, hinner, hnode, -, htouched, -⟩ := transition.run_simulated
    (fun node net event net' hfollows hstep => hfollows.step params hstep) (follows_idle params hfresh) hrun
  exact ⟨node, inner, hinner, hnode, htouched⟩

/-- No peer can bring the node into a bad state: its chain is made of blocks that arrived, its coins are
    worth at most the subsidies, its pool can be mined, and the connections are limited. -/
theorem run_safe {start : CBlockchain} {final : Network} {events : List NetEvent}
    (hcollision : Set.InjOn sha256d (serializeTransaction ''
      occurring (Node.blocks (transition.emitted (step params) (carries params) (idle start) events))))
    (hfresh : CBlockchain.fresh params = some start)
    (hrun : transition.run (step params) (idle start) events = some final) :
    Occurs params (Node.blocks (transition.emitted (step params) (carries params) (idle start) events)) final.node.chain ∧
      final.node.chain.chain.view.totalValue ≤ getCumulativeSupplyAt (final.node.chain.chain.height + 1) ∧
      final.node.PoolValid ∧ final.links.size ≤ MAX_PEERS := by
  obtain ⟨node, inner, hinner, hnode, -, htouched, hsize⟩ := transition.run_simulated
    (fun node net event net' hfollows hstep => hfollows.step params hstep) (follows_idle params hfresh) hrun
  have hblocks : ∀ blk ∈ Node.blocks inner,
      blk ∈ Node.blocks (transition.emitted (step params) (carries params) (idle start) events) :=
    fun blk hblk => (hinner.filterMap _).subset hblk
  have hcollision' : Set.InjOn sha256d (serializeTransaction '' occurring (Node.blocks inner)) := by
    refine hcollision.mono (Set.image_mono ?_)
    rintro tx (hgenesis | ⟨blk, hblk, htx⟩)
    · exact Or.inl hgenesis
    · exact Or.inr ⟨blk, hblocks blk hblk, htx⟩
  obtain ⟨node', hnode', ⟨active, hactive, hknown⟩, hvalid⟩ := Node.run_fresh inner hfresh Node.poolValid_empty
    (fun _ _ _ hevent hoccurs hvalid hstep => hvalid.step hcollision' hevent hoccurs hstep)
  obtain rfl : node = node' := Option.some.inj (hnode.symm.trans hnode')
  have hactive' := hactive.touched htouched.1
  refine ⟨⟨active, hactive', fun blk hblk => (hknown blk hblk).imp_right (hblocks blk)⟩, ?_, ?_, hsize⟩
  · have hheight : final.node.chain.chain.height + 1 = (active.length : Int) := by
      rw [hactive'.height]
      omega
    rw [hheight, getCumulativeSupplyAt_eq]
    exact hactive'.funded.total
  · intro txid entry hentry
    rw [htouched.2] at hentry
    rw [htouched.1.chain_eq]
    exact hvalid txid entry hentry

/-- A peer that connects, sends one message and leaves. -/
def visit (fd : Nat) (msg : CNetMessage) (env : Environment) : List NetEvent :=
  [.join fd true true, .receive fd (messageFrame params.networkMagic msg), .round fd env, .round fd env, .leave fd]

/-- The message is handled, and the node is as its verdict says. -/
theorem run_visit (node : Node) (fd : Nat) {msg : CNetMessage} (env : Environment)
    (hknown : isKnownCommand msg.command = true) (hpayload : msg.payload.length ≤ MAX_MESSAGE_SIZE)
    (hhttp : isHttp (messageFrame params.networkMagic msg) = false) :
    ∃ final, transition.run (step params) { node := node } (visit params fd msg env) = some final ∧
      final.node = (judge params (env.now 1) node msg).node ∧
      transition.emitted (step params) (carries params) { node := node } (visit params fd msg env) =
        carried (env.now 1) msg := by
  have hparse : parseMessage params.networkMagic (messageFrame params.networkMagic msg) =
      .complete msg (24 + msg.payload.length) := by
    rw [messageFrame, parseMessage_header_append hknown hpayload, if_neg (Nat.lt_irrefl _), List.take_length,
      if_neg (by simp)]
  have hend : (messageFrame params.networkMagic msg).drop (24 + msg.payload.length) = [] := by
    apply List.drop_eq_nil_of_le
    rw [messageFrame, List.length_append, length_messageHeader _ (isKnownCommand_spec hknown).1]
  have hnothing : parseMessage params.networkMagic [] = .incomplete := rfl
  let greeted : Link := Link.fresh node true true
  let reading : Link := { peer := { greeted.peer with recvBuffer := messageFrame params.networkMagic msg }, busy := true }
  let handled : CNode Connection := ⟨CNodeHandler.onMessage params env greeted.peer.toPeer msg, []⟩
  have hjoined : step params { node := node } (.join fd true true) =
      some { node := node, links := (∅ : Std.ExtTreeMap Nat Link).insert fd greeted } := by
    simp [step, MAX_PEERS, greeted]
  have hreceived (links : Std.ExtTreeMap Nat Link) : step params { node := node, links := links.insert fd greeted }
      (.receive fd (messageFrame params.networkMagic msg)) = some { node := node, links := links.insert fd reading } := by
    simp only [step, Std.ExtTreeMap.getElem?_insert_self, insert_insert]
    simp only [greeted, Link.receive, Link.fresh, List.nil_append, hhttp]
    rfl
  have hhandled (links : Std.ExtTreeMap Nat Link) : step params { node := node, links := links.insert fd reading }
      (.round fd env) = some { node := handled.world.node, links := links.insert fd { peer := handled, busy := true } } := by
    have hround : CNetServer.processRound params (CNodeHandler.onMessage params env) (reading.attach node) =
        (true, handled) := by
      have hbuffer : (reading.attach node).recvBuffer = messageFrame params.networkMagic msg := rfl
      simp only [CNetServer.processRound, hbuffer, hparse, hend]
      rfl
    simp only [step, Std.ExtTreeMap.getElem?_insert_self, insert_insert, hround]
    rfl
  have hfinished (links : Std.ExtTreeMap Nat Link) :
      step params { node := handled.world.node, links := links.insert fd { peer := handled, busy := true } } (.round fd env) =
        some { node := handled.world.node, links := links.insert fd { peer := handled } } := by
    simp only [step, Std.ExtTreeMap.getElem?_insert_self, insert_insert]
    rfl
  have hleft (links : Std.ExtTreeMap Nat Link) :
      step params { node := handled.world.node, links := links.insert fd { peer := handled } } (.leave fd) =
        some { node := handled.world.node, links := (links.insert fd { peer := handled }).erase fd } := by
    simp only [step, Std.ExtTreeMap.getElem?_insert_self, Bool.false_eq_true, if_false]
  refine ⟨{ node := handled.world.node, links := (Std.ExtTreeMap.insert ∅ fd { peer := handled }).erase fd }, ?_, ?_, ?_⟩
  · simp only [visit, transition.run, hjoined, hreceived, hhandled, hfinished, hleft]
  · exact (CNodeHandler.handled_onMessage params env greeted.peer.toPeer msg).node
  · simp only [visit, transition.emitted, hjoined, hreceived, hhandled, hfinished, hleft, carries,
      Std.ExtTreeMap.getElem?_insert_self, List.nil_append, List.append_nil]
    simp only [reading, handled, hparse, hnothing, List.append_nil]
    rfl

end Network

section

open Network

attribute [local instance] toolCrypto zeroMemory

/-- The first block as a message. -/
def firstBlockMessage : CNetMessage := ⟨ascii "block", serializeBlock firstBlock⟩

/-- A peer brings the first block to a fresh node. -/
def visitEvents : List NetEvent := visit regtestParams 3 firstBlockMessage openEnvironment

/-- The node takes it, and nothing else has reached it. -/
theorem run_visitEvents : ∃ start g final, CBlockchain.fresh regtestParams = some start ∧
    transition.run (step regtestParams) (idle start) visitEvents = some final ∧
    final.node.chain.readChain = some [g, firstBlock] ∧
    transition.emitted (step regtestParams) (carries regtestParams) (idle start) visitEvents = [.block firstBlock] := by
  have hevaluated : isKnownCommand firstBlockMessage.command = true ∧ firstBlockMessage.payload.length ≤ MAX_MESSAGE_SIZE ∧
      isHttp (messageFrame regtestParams.networkMagic firstBlockMessage) = false := by
    rw [← tableCrypto_eq digests_right]
    decide +kernel
  have hread : deserializeBlock (serializeBlock firstBlock) = some firstBlock := by
    have hchecked := checkBlock_regtestBlock (getGenesisBlock regtestParams).getHash 1 (CDX_GENESIS_TIMESTAMP + 1) 0x207fffff 0
      CCoinsView.empty
    have hread := deserializeBlock_serializeBlock (decodable_of_checkBlock hchecked) []
    rwa [List.append_nil] at hread
  obtain ⟨start, g, hfresh, -, hactive, hextends⟩ := firstBlock_extendsAt
  obtain ⟨final, hrun, hnode, hemitted⟩ := run_visit regtestParams { chain := start } 3 openEnvironment hevaluated.1
    hevaluated.2.1 hevaluated.2.2
  refine ⟨start, g, final, hfresh, hrun, ?_, ?_⟩
  · obtain ⟨r, chain, haccept, -, hactive', -⟩ := Node.acceptBlock_extends { chain := start } hactive hextends
    have hhandled : Node.handleBlock regtestParams { chain := start } firstBlock =
        some (r, { chain := chain, mempool := (CTxMemPool.removeSpent {} chain.chain.view chain.chain.height).2 }) := by
      rw [Node.handleBlock, hextends.unknown, if_neg Bool.false_ne_true, haccept]
    rw [hnode, firstBlockMessage, judge_block, judgeBlock, hread]
    simp only [hhandled, Option.map_some, Option.getD_some]
    exact hactive'.readChain
  · refine hemitted.trans ?_
    rw [carried, firstBlockMessage, if_neg (by decide), if_pos rfl, hread]
    rfl

/-- The block that arrives is the one event of the node. -/
theorem run_refines_visit : ∃ start g final node inner, CBlockchain.fresh regtestParams = some start ∧
    transition.run (step regtestParams) (idle start) visitEvents = some final ∧
    final.node.chain.readChain = some [g, firstBlock] ∧ inner.Sublist [.block firstBlock] ∧
    transition.run (Node.step regtestParams) { chain := start } inner = some node ∧ node.Touched final.node := by
  obtain ⟨start, g, final, hfresh, hrun, hchain, hemitted⟩ := run_visitEvents
  obtain ⟨node, inner, hinner, hnode, htouched⟩ := run_refines regtestParams hfresh hrun
  rw [hemitted] at hinner
  exact ⟨start, g, final, node, inner, hfresh, hrun, hchain, hinner, hnode, htouched⟩

theorem run_safe_visit : ∃ start g final, CBlockchain.fresh regtestParams = some start ∧
    transition.run (step regtestParams) (idle start) visitEvents = some final ∧
    final.node.chain.readChain = some [g, firstBlock] ∧ Occurs regtestParams [firstBlock] final.node.chain ∧
    final.node.chain.chain.view.totalValue ≤ getCumulativeSupplyAt (final.node.chain.chain.height + 1) ∧
    final.node.PoolValid ∧ final.links.size ≤ MAX_PEERS := by
  obtain ⟨start, g, final, hfresh, hrun, hchain, hemitted⟩ := run_visitEvents
  have hblocks : Node.blocks (transition.emitted (step regtestParams) (carries regtestParams) (idle start) visitEvents) =
      [firstBlock] := by
    rw [hemitted]
    rfl
  have hcollision := collisionFree_first (occurring_first (List.forall_mem_singleton.mpr (show firstBlock.vtx = _ from rfl)))
  rw [← hblocks] at hcollision
  obtain ⟨hoccurs, hsupply, hvalid, hsize⟩ := run_safe regtestParams hcollision hfresh hrun
  rw [hblocks] at hoccurs
  exact ⟨start, g, final, hfresh, hrun, hchain, hoccurs, hsupply, hvalid, hsize⟩

end

end cdx
