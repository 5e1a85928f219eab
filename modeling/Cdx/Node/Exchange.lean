import Cdx.Node.Sync

namespace cdx

/-! A connection over which one node catches up with the other. -/

/-- Two nodes on one connection, and the messages that are on their way. -/
structure Exchange where
  server : Remote
  client : Remote
  toServer : List CNetMessage
  toClient : List CNetMessage

inductive Side where
  | server
  | client

/-- The version message that `ConnectTo` sends. -/
def greeting (timestamp : Int64) (nonce : UInt64) : CVersionMessage :=
  { ownVersion 0 with timestamp := timestamp, nonce := nonce }

/-- The peer has no points and is not cut off. -/
structure Kept (peer : Remote) (inbound : Bool) : Prop where
  score : peer.misbehaviorScore = 0
  connected : peer.disconnected = false
  inbound : peer.world.inbound = inbound

theorem Kept.onMessage [Crypto] [Memory] {params : ChainParams} {env : Environment} {peer : Remote} {inbound : Bool}
    {msg : CNetMessage} (haccepts : ∀ n, env.accepts n = true) (hkept : Kept peer inbound)
    (hwelcome : Welcome (judge params (env.now (peer.world.handled + 1)) peer.world.node msg)) :
    Kept (CNodeHandler.onMessage params env peer msg) inbound := by
  have hhandled := CNodeHandler.handled_onMessage params env peer msg
  refine ⟨?_, ?_, ?_⟩
  · rw [hhandled.score, hwelcome.points, Int.add_zero]
    exact hkept.score
  · by_contra hmarked
    obtain hold | hrefused := hhandled.unmarked haccepts (Bool.eq_true_of_not_eq_false hmarked)
    · exact absurd (hold.symm.trans hkept.connected) (by decide)
    · exact absurd (hrefused.symm.trans hwelcome.accepted) (by decide)
  · exact (CNodeHandler.answered_onMessage params env peer msg).inbound.trans hkept.inbound

namespace Exchange

variable [Crypto] [Memory] (params : ChainParams)

/-- The client has connected to the server and sent its version. -/
def connect (server client : Node) (timestamp : Int64) (nonce : UInt64) : Exchange where
  server := ⟨0, false, { node := server, inbound := true }⟩
  client := ⟨0, false, { node := client, inbound := false }⟩
  toServer := CNodeHandler.sent params "version" (serializeVersion (greeting timestamp nonce))
  toClient := []

/-- One side takes its next message and answers it. -/
def step (env : Side → Environment) (x : Exchange) : Side → Option Exchange
  | .server =>
    match x.toServer with
    | [] => none
    | msg :: rest =>
      some { x with
        server := CNodeHandler.onMessage params (env .server) x.server msg
        toServer := rest
        toClient := x.toClient ++ CNodeHandler.answers params (env .server) x.server msg }
  | .client =>
    match x.toClient with
    | [] => none
    | msg :: rest =>
      some { x with
        client := CNodeHandler.onMessage params (env .client) x.client msg
        toClient := rest
        toServer := x.toServer ++ CNodeHandler.answers params (env .client) x.client msg }

end Exchange

section Mirror

variable [Crypto] [Memory]

/-- The exchange as the protocol sees it. -/
structure Mirrors (params : ChainParams) (chain : List CBlock) (locator : List UInt256)
    (x : duplex.State Nat CatchUp.Up CatchUp.Down) (y : Exchange) : Prop where
  server : Active params y.server.world.node.chain chain
  located : y.server.world.node.chain.locator = locator
  client : Behind params y.client.world.node.chain chain x.client
  up : List.Forall₂ (SaysUp chain) x.up y.toServer
  down : List.Forall₂ (SaysDown chain locator) x.down y.toClient
  keptServer : Kept y.server true
  keptClient : Kept y.client false
  queued : CatchUp.Queued chain.length x.client (duplex.pending (CatchUp.serve 2000) x)

variable {params : ChainParams} {chain : List CBlock} {locator : List UInt256}

theorem mirrors_connect {server client : Node} {n : Nat} (hserver : Active params server.chain chain)
    (hclient : Behind params client.chain chain n) (timestamp : Int64) (nonce : UInt64) :
    Mirrors params chain server.chain.locator ⟨n, [.version], []⟩
      (Exchange.connect params server client timestamp nonce) where
  server := hserver
  located := rfl
  client := hclient
  up := by
    have hagent : (greeting timestamp nonce).userAgent.val.length ≤ 1000 := length_ownVersion 0
    rw [Exchange.connect, sent_version params hagent]
    exact .cons (.version (ownVersion_recent 0)) .nil
  down := .nil
  keptServer := ⟨rfl, rfl, rfl⟩
  keptClient := ⟨rfl, rfl, rfl⟩
  queued := ⟨hclient.below, by simp [duplex.pending, CatchUp.serve], by simp [duplex.pending, CatchUp.serve],
    by simp [duplex.pending, CatchUp.serve]⟩

omit [Crypto] in
theorem locator_touched {bc bc' : CBlockchain} (htouched : CBlockchain.Touched bc bc') : bc'.locator = bc.locator := by
  have hchain := htouched.chain_eq
  have hget (h : Int) : bc'.getBlockHashByHeight h = bc.getBlockHashByHeight h := by
    rw [CBlockchain.getBlockHashByHeight, CBlockchain.getBlockHashByHeight, hchain]
  have hfrom (rounds : Nat) (h : Int) (entries : List UInt256) :
      bc'.locatorFrom rounds h entries = bc.locatorFrom rounds h entries := by
    induction rounds generalizing h entries with
    | zero => rfl
    | succ rounds ih =>
      simp only [CBlockchain.locatorFrom, hget, ih]
  rw [CBlockchain.locator, CBlockchain.locator, hfrom, hchain]

/-- Every delivery is a step of the protocol. -/
theorem Mirrors.step {env : Side → Environment} {x : duplex.State Nat CatchUp.Up CatchUp.Down} {y y' : Exchange} {side : Side}
    (haccepts : ∀ side n, (env side).accepts n = true) (hright : RightBits params chain)
    (hsize : ∀ blk ∈ chain, (serializeBlock blk).length ≤ MAX_MESSAGE_SIZE) (hmirrors : Mirrors params chain locator x y)
    (hstep : y.step params env side = some y') :
    ∃ x', duplex.Step (CatchUp.serve 2000) (CatchUp.Reacts chain.length 2000 100) x x' ∧
      Mirrors params chain locator x' y' := by
  let progress : duplex.Progress (CatchUp.serve 2000) (CatchUp.Reacts chain.length 2000 100) :=
    CatchUp.progress (by decide) (by decide)
  obtain ⟨n, up, down⟩ := x
  cases side with
  | server =>
    have hup := hmirrors.up
    cases htoServer : y.toServer with
    | nil =>
      simp only [Exchange.step, htoServer] at hstep
      cases hstep
    | cons msg rest =>
      simp only [Exchange.step, htoServer, Option.some.injEq] at hstep
      rw [htoServer] at hup
      cases hup with
      | @cons u _ ups _ hmsg hrest =>
        have hmove : duplex.Step (CatchUp.serve 2000) (CatchUp.Reacts chain.length 2000 100) ⟨n, u :: ups, down⟩
            ⟨n, ups, down ++ CatchUp.serve 2000 u⟩ := .server
        obtain ⟨hwelcome, htouched⟩ := serve_judge params ((env .server).now (y.server.world.handled + 1))
          y.server.world.node hmsg
        have hnode := (CNodeHandler.handled_onMessage params (env .server) y.server msg).node
        refine ⟨_, hmove, ?_⟩
        subst hstep
        refine ⟨?_, ?_, hmirrors.client, hrest, ?_, hmirrors.keptServer.onMessage (haccepts .server) hwelcome,
          hmirrors.keptClient, progress.keeps_step hmirrors.queued hmove⟩
        · rw [hnode]
          exact hmirrors.server.touched htouched.1
        · rw [hnode, locator_touched htouched.1]
          exact hmirrors.located
        · exact List.rel_append hmirrors.down
            (serve_answers hsize hmirrors.server hmirrors.located hmirrors.keptServer.inbound hmsg)
  | client =>
    have hdown := hmirrors.down
    cases htoClient : y.toClient with
    | nil =>
      simp only [Exchange.step, htoClient] at hstep
      cases hstep
    | cons msg rest =>
      simp only [Exchange.step, htoClient, Option.some.injEq] at hstep
      rw [htoClient] at hdown
      cases hdown with
      | @cons d _ downs _ hmsg hrest =>
        rw [← hmirrors.located] at hmsg
        have hstarts : ∀ start, d = .headers start → start ≤ n := by
          rintro start rfl
          exact hmirrors.queued.starts start (List.mem_append_left _ List.mem_cons_self)
        obtain ⟨n', ups, hreacts, hsaid, hwelcome, hbehind⟩ := hmirrors.client.reacting (env .client)
          ((env .client).now (y.client.world.handled + 1)) hmirrors.keptClient.inbound hmirrors.server hright hstarts hmsg
        have hmove : duplex.Step (CatchUp.serve 2000) (CatchUp.Reacts chain.length 2000 100) ⟨n, up, d :: downs⟩
            ⟨n', up ++ ups, downs⟩ := .client hreacts
        have hnode := (CNodeHandler.handled_onMessage params (env .client) y.client msg).node
        refine ⟨_, hmove, ?_⟩
        subst hstep
        refine ⟨hmirrors.server, hmirrors.located, ?_, List.rel_append hmirrors.up hsaid, hrest, hmirrors.keptServer,
          hmirrors.keptClient.onMessage (haccepts .client) hwelcome, progress.keeps_step hmirrors.queued hmove⟩
        rw [hnode]
        exact hbehind

theorem Mirrors.run {env : Side → Environment} {x : duplex.State Nat CatchUp.Up CatchUp.Down} {y y' : Exchange}
    {sides : List Side} (haccepts : ∀ side n, (env side).accepts n = true) (hright : RightBits params chain)
    (hsize : ∀ blk ∈ chain, (serializeBlock blk).length ≤ MAX_MESSAGE_SIZE) (hmirrors : Mirrors params chain locator x y)
    (hrun : transition.run (Exchange.step params env) y sides = some y') :
    ∃ x', x.client ≤ x'.client ∧ Mirrors params chain locator x' y' := by
  apply transition.run_invariant (I := fun y => ∃ x', x.client ≤ x'.client ∧ Mirrors params chain locator x' y) _ _ hrun
  · rintro y side y' - ⟨x', hle, hmirrors'⟩ hstep
    obtain ⟨x'', hmove, hmirrors''⟩ := hmirrors'.step haccepts hright hsize hstep
    exact ⟨x'', hle.trans (CatchUp.step_le hmove), hmirrors''⟩
  · exact ⟨x, Nat.le_refl _, hmirrors⟩

/-- Every delivery brings the exchange closer to its end. -/
theorem Mirrors.acc {env : Side → Environment} {x : duplex.State Nat CatchUp.Up CatchUp.Down} {y : Exchange}
    (haccepts : ∀ side n, (env side).accepts n = true) (hright : RightBits params chain)
    (hsize : ∀ blk ∈ chain, (serializeBlock blk).length ≤ MAX_MESSAGE_SIZE) (hmirrors : Mirrors params chain locator x y) :
    Acc (fun y' y : Exchange => ∃ side, y.step params env side = some y') y := by
  let progress : duplex.Progress (CatchUp.serve 2000) (CatchUp.Reacts chain.length 2000 100) :=
    CatchUp.progress (by decide) (by decide)
  apply duplex.acc_of_simulated (R := fun y x => Mirrors params chain locator x y) _
    (progress.acc_step hmirrors.queued) hmirrors
  rintro y y' x hmirrors ⟨side, hstep⟩
  exact hmirrors.step haccepts hright hsize hstep

/-- Without messages nothing is missing. -/
theorem Mirrors.synced {x : duplex.State Nat CatchUp.Up CatchUp.Down} {y : Exchange}
    (hmirrors : Mirrors params chain locator x y) (htoServer : y.toServer = []) (htoClient : y.toClient = []) :
    chain.take x.client = chain := by
  have hup := hmirrors.up
  have hdown := hmirrors.down
  rw [htoServer, List.forall₂_nil_right_iff] at hup
  rw [htoClient, List.forall₂_nil_right_iff] at hdown
  have hpending : duplex.pending (CatchUp.serve 2000) x = [] := by
    rw [duplex.pending, hdown, hup]
    rfl
  let progress : duplex.Progress (CatchUp.serve 2000) (CatchUp.Reacts chain.length 2000 100) :=
    CatchUp.progress (by decide) (by decide)
  have hleft : chain.length - x.client = 0 := progress.done_of_pending hmirrors.queued hpending
  exact List.take_of_length_le (by omega)

end Mirror

namespace Exchange

section Runs

variable [Crypto] [Memory] {params : ChainParams} {chain : List CBlock} {env : Side → Environment} {server client : Node}
  {n : Nat} {timestamp : Int64} {nonce : UInt64}

/-- Whatever the order in which the messages arrive, the node that is behind has some of the chain of the
    other one, neither of them thinks ill of the other, and when no message is left it has all of it. -/
theorem run_synced {sides : List Side} {final : Exchange} (haccepts : ∀ side n, (env side).accepts n = true)
    (hserver : Active params server.chain chain) (hclient : Behind params client.chain chain n)
    (hright : RightBits params chain) (hsize : ∀ blk ∈ chain, (serializeBlock blk).length ≤ MAX_MESSAGE_SIZE)
    (hrun : transition.run (step params env) (connect params server client timestamp nonce) sides = some final) :
    ∃ m, n ≤ m ∧ Active params final.client.world.node.chain (chain.take m) ∧
      Active params final.server.world.node.chain chain ∧ Kept final.server true ∧ Kept final.client false ∧
      (final.toServer = [] → final.toClient = [] → final.client.world.node.chain.readChain = some chain) := by
  obtain ⟨x, hle, hmirrors⟩ := (mirrors_connect hserver hclient timestamp nonce).run haccepts hright hsize hrun
  refine ⟨x.client, hle, hmirrors.client.active, hmirrors.server, hmirrors.keptServer, hmirrors.keptClient, ?_⟩
  intro htoServer htoClient
  rw [hmirrors.client.active.readChain, hmirrors.synced htoServer htoClient]

/-- The exchange does not go on for ever. -/
theorem run_ends (haccepts : ∀ side n, (env side).accepts n = true) (hserver : Active params server.chain chain)
    (hclient : Behind params client.chain chain n) (hright : RightBits params chain)
    (hsize : ∀ blk ∈ chain, (serializeBlock blk).length ≤ MAX_MESSAGE_SIZE) :
    ¬ ∃ states : Nat → Exchange, states 0 = connect params server client timestamp nonce ∧
      ∀ i, ∃ side, (states i).step params env side = some (states (i + 1)) := by
  intro hendless
  exact not_acc_iff_exists_descending_chain.mpr hendless
    ((mirrors_connect hserver hclient timestamp nonce).acc haccepts hright hsize)

end Runs

section

attribute [local instance] toolCrypto zeroMemory

/-- Nodes with two blocks and with one. -/
theorem regtest_behind : ∃ start bc chain, Active regtestParams bc chain ∧ Behind regtestParams start chain 1 ∧
    RightBits regtestParams chain ∧ (∀ blk ∈ chain, (serializeBlock blk).length ≤ MAX_MESSAGE_SIZE) ∧
    chain.length = 2 := by
  have hevaluated :
      (CBlockchain.minedGenesis regtestParams).map (fun g => decide ((serializeBlock g).length ≤ MAX_MESSAGE_SIZE)) =
        some true ∧ (serializeBlock firstBlock).length ≤ MAX_MESSAGE_SIZE := by
    rw [← tableCrypto_eq digests_right]
    decide +kernel
  obtain ⟨hgenesis, hfirst⟩ := hevaluated
  obtain ⟨start, g, -, hmined, hactive, hextends⟩ := firstBlock_extendsAt
  have hsize : (serializeBlock g).length ≤ MAX_MESSAGE_SIZE := by
    rw [hmined] at hgenesis
    exact of_decide_eq_true (Option.some.inj hgenesis)
  obtain ⟨r, bc, -, -, hactive'⟩ := hactive.tryAcceptBlock_extends hextends
  have hlast : [g].getLast? = some g := rfl
  have hright := ((rightBits_singleton regtestParams g).snoc_iff hlast firstBlock).mpr (hextends.bits g hlast)
  refine ⟨start, bc, [g] ++ [firstBlock], hactive', ⟨hactive, Nat.le_succ 1, ?_⟩, hright, ?_, rfl⟩
  · intro i blk hi hblk
    obtain rfl : i = 1 := by
      have hlt := (List.getElem?_eq_some_iff.mp hblk).1
      simp only [List.length_append, List.length_singleton] at hlt
      omega
    cases hblk
    exact hextends.unknown
  · intro blk hblk
    obtain rfl | rfl : blk = g ∨ blk = firstBlock := by simpa using hblk
    · exact hsize
    · exact hfirst

/-- A run of the two that is over. -/
theorem run_synced_regtest : ∃ server client chain sides final, client.chain.readChain = some (chain.take 1) ∧
    chain.length = 2 ∧ transition.run (step regtestParams fun _ => openEnvironment)
      (connect regtestParams server client 0 1) sides = some final ∧
    final.client.world.node.chain.readChain = some chain := by
  obtain ⟨start, bc, chain, hserver, hclient, hright, hsize, hlength⟩ := regtest_behind
  have haccepts : ∀ (side : Side) (n : Nat), ((fun _ : Side => openEnvironment) side).accepts n = true := fun _ _ => rfl
  have hserver' : Active regtestParams (Node.chain { chain := bc }) chain := hserver
  have hclient' : Behind regtestParams (Node.chain { chain := start }) chain 1 := hclient
  obtain ⟨sides, final, hrun, hstuck⟩ := transition.exists_stuck
    ((mirrors_connect hserver' hclient' 0 1).acc haccepts hright hsize)
  obtain ⟨m, -, -, -, -, -, hsynced⟩ := run_synced haccepts hserver' hclient' hright hsize hrun
  have htoServer : final.toServer = [] := by
    have hnone := hstuck .server
    rw [step] at hnone
    split at hnone
    · assumption
    · cases hnone
  have htoClient : final.toClient = [] := by
    have hnone := hstuck .client
    rw [step] at hnone
    split at hnone
    · assumption
    · cases hnone
  exact ⟨_, _, chain, sides, final, hclient.active.readChain, hlength, hrun, hsynced htoServer htoClient⟩

theorem run_ends_regtest : ∃ server client, ¬ ∃ states : Nat → Exchange,
    states 0 = connect regtestParams server client 0 1 ∧
      ∀ i, ∃ side, (states i).step regtestParams (fun _ => openEnvironment) side = some (states (i + 1)) := by
  obtain ⟨start, bc, chain, hserver, hclient, hright, hsize, -⟩ := regtest_behind
  have hserver' : Active regtestParams (Node.chain { chain := bc }) chain := hserver
  have hclient' : Behind regtestParams (Node.chain { chain := start }) chain 1 := hclient
  exact ⟨_, _, run_ends (fun _ _ => rfl) hserver' hclient' hright hsize⟩

end

end Exchange

end cdx
