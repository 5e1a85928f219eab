import Cdx.Blockchain.DifficultyRule
import Cdx.Blockchain.HeaviestChain
import Cdx.Node.CatchUp
import Cdx.Node.Replies

namespace cdx

/-! Both sides of a node that catches up with a longer chain: what their messages say, and that each side
    takes and answers them as the protocol says. -/

/-- What a message of the node that is behind says, given the chain of the other one. -/
inductive SaysUp [Crypto] (chain : List CBlock) : CatchUp.Up → CNetMessage → Prop where
  | version {v : CVersionMessage} (hv : ¬ v.version < MIN_PROTOCOL_VERSION) :
      SaysUp chain .version ⟨ascii "version", serializeVersion v⟩
  | verack : SaysUp chain .verack ⟨ascii "verack", []⟩
  | getheaders {i : Nat} {blk : CBlock} {rest : List UInt256} (hblk : chain[i]? = some blk) (hrest : rest.length ≤ 31) :
      SaysUp chain (.getheaders (i + 1)) ⟨ascii "getheaders", buildGetHeadersPayload (blk.getHash :: rest) 0⟩
  | headers {blks : List CBlock} (hblks : ∀ blk ∈ blks, blk ∈ chain) (hlength : blks.length ≤ 2000) :
      SaysUp chain (.headers blks.length) ⟨ascii "headers", buildHeadersPayload (blks.map CBlock.header)⟩
  | getdata {start : Nat} {blks : List CBlock} (hblks : blks <+: chain.drop start) (hlength : blks.length ≤ 100) :
      SaysUp chain (.getdata start blks.length) ⟨ascii "getdata", serializeInv (blockInvs blks)⟩

/-- What a message of the node that is ahead says. -/
inductive SaysDown [Crypto] (chain : List CBlock) (locator : List UInt256) : CatchUp.Down → CNetMessage → Prop where
  | version {v : CVersionMessage} (hv : ¬ v.version < MIN_PROTOCOL_VERSION) :
      SaysDown chain locator .version ⟨ascii "version", serializeVersion v⟩
  | verack : SaysDown chain locator .verack ⟨ascii "verack", []⟩
  | getheaders : SaysDown chain locator .getheaders ⟨ascii "getheaders", buildGetHeadersPayload locator 0⟩
  | headers {start : Nat} : SaysDown chain locator (.headers start)
      ⟨ascii "headers", buildHeadersPayload (((chain.drop start).take 2000).map CBlock.header)⟩
  | block {height : Nat} {blk : CBlock} (hblk : chain[height]? = some blk) :
      SaysDown chain locator (.block height) ⟨ascii "block", serializeBlock blk⟩

section Server

open CNodeHandler

variable [Crypto] [Memory] {params : ChainParams} {chain : List CBlock}

omit [Crypto] [Memory] in
theorem haveBlock_of_getIndex {bc : CBlockchain} {hash : UInt256} {entry : CBlockIndex}
    (hentry : bc.getIndex hash = some entry) : bc.haveBlock hash = true := by
  rw [CBlockchain.haveBlock, Std.ExtTreeMap.contains_eq_isSome_getElem?]
  rw [CBlockchain.getIndex] at hentry
  rw [hentry, Option.isSome_some]

omit [Crypto] [Memory] in
theorem getIndex_of_haveBlock {bc : CBlockchain} {hash : UInt256} (hhave : bc.haveBlock hash = false) :
    bc.getIndex hash = none := by
  cases hentry : bc.getIndex hash with
  | none => rfl
  | some entry =>
    rw [haveBlock_of_getIndex hentry] at hhave
    cases hhave

theorem Active.haveBlock {bc : CBlockchain} {blocks : List CBlock} (hactive : Active params bc blocks) {blk : CBlock}
    (hblk : blk ∈ blocks) : bc.haveBlock blk.getHash = true := by
  obtain ⟨i, hi⟩ := List.mem_iff_getElem?.mp hblk
  exact haveBlock_of_getIndex (hactive.indexed i blk hi)

theorem headersRequest_eq {node : Node} {blocks : List CBlock} (hactive : Active params node.chain blocks) {last : CBlock}
    (hlast : blocks.getLast? = some last) :
    ∃ rest, rest.length ≤ 31 ∧ node.chain.locator = last.getHash :: rest ∧ headersRequest params node =
      [⟨ascii "getheaders", buildGetHeadersPayload (last.getHash :: rest) 0⟩] := by
  obtain ⟨rest, hlocator, hrest⟩ := hactive.locator hlast
  refine ⟨rest, hrest, hlocator, ?_⟩
  rw [headersRequest, hlocator]
  exact sent_getheaders params (by rw [List.length_cons]; omega)

omit [Memory] in
/-- Blocks in a row are sent as they are asked for. -/
theorem sent_blocks {locator : List UInt256} (hsize : ∀ blk ∈ chain, (serializeBlock blk).length ≤ MAX_MESSAGE_SIZE)
    {blks : List CBlock} {start : Nat} (hblks : blks <+: chain.drop start) :
    List.Forall₂ (SaysDown chain locator) ((List.range' start blks.length).map .block)
      ((blks.map serializeBlock).flatMap (sent params "block")) := by
  induction blks generalizing start with
  | nil => exact .nil
  | cons blk blks ih =>
    obtain ⟨tail, htail⟩ := hblks
    have hblk : chain[start]? = some blk := by rw [← List.head?_drop, ← htail]; rfl
    have hrest : blks <+: chain.drop (start + 1) := by
      refine ⟨tail, ?_⟩
      rw [← List.tail_drop, ← htail]
      rfl
    rw [List.length_cons, List.range'_succ, List.map_cons, List.map_cons, List.flatMap_cons,
      sent_of_le params (by decide) (hsize blk (List.mem_of_getElem? hblk))]
    exact .cons (.block hblk) (ih hrest)

omit [Crypto] [Memory] in
theorem length_ownVersion (height : Int) : (ownVersion height).userAgent.val.length ≤ 1000 :=
  show (ascii "/CDX:0.1.0/").length ≤ 1000 by decide

omit [Crypto] [Memory] in
theorem ownVersion_recent (height : Int) : ¬ (ownVersion height).version < MIN_PROTOCOL_VERSION :=
  show ¬ PROTOCOL_VERSION < MIN_PROTOCOL_VERSION by decide

/-- The node that is ahead answers every message as the protocol says. -/
theorem serve_answers {env : Environment} {peer : Remote} {locator : List UInt256} {u : CatchUp.Up} {msg : CNetMessage}
    (hsize : ∀ blk ∈ chain, (serializeBlock blk).length ≤ MAX_MESSAGE_SIZE)
    (hserver : Active params peer.world.node.chain chain) (hlocator : peer.world.node.chain.locator = locator)
    (hinbound : peer.world.inbound = true) (hmsg : SaysUp chain u msg) :
    List.Forall₂ (SaysDown chain locator) (CatchUp.serve 2000 u) (answers params env peer msg) := by
  obtain ⟨last, hlast, -⟩ := hserver.tip
  obtain ⟨rest, hrest, hrest', hrequest⟩ := headersRequest_eq hserver hlast
  rw [← hrest', hlocator] at hrequest
  cases hmsg with
  | @version v hv =>
    rw [answers_version, answersVersion, payload_roundTrip.1]
    simp only [hv, if_false, hinbound, if_true]
    rw [sent_version params (length_ownVersion _), sent_verack, hrequest]
    exact .cons (.version (ownVersion_recent _)) (.cons .verack (.cons .getheaders .nil))
  | verack =>
    rw [answers_verack]
    exact .nil
  | @getheaders i blk rest hblk hrest =>
    rw [answers_getheaders, answersGetHeaders, payload_roundTrip.2.2.1 _ _ (by rw [List.length_cons]; omega)]
    simp only
    rw [hserver.handleGetHeaders hblk, sent_headers params (by rw [List.length_map]; exact List.length_take_le _ _)]
    exact .cons .headers .nil
  | @headers blks hblks hlength =>
    have hknown : ((blks.map CBlock.header).map CBlockHeader.getHash).filter
        (fun hash => !peer.world.node.chain.haveBlock hash) = [] := by
      rw [List.filter_eq_nil_iff]
      intro hash hhash
      rw [List.map_map] at hhash
      obtain ⟨blk, hblk, rfl⟩ := List.mem_map.mp hhash
      rw [show (CBlockHeader.getHash ∘ CBlock.header) blk = blk.getHash from rfl, hserver.haveBlock (hblks blk hblk)]
      decide
    rw [answers_headers, answersHeaders, payload_roundTrip.2.2.2 _ (by rw [List.length_map]; exact hlength)]
    simp only [hknown, List.take_nil, List.map_nil, if_true, List.nil_append, ne_eq, not_true_eq_false, false_or,
      List.length_map, CatchUp.serve, ge_iff_le, List.map_eq_nil_iff]
    by_cases hfull : 2000 ≤ blks.length
    · have hne : blks ≠ [] := List.ne_nil_of_length_pos (by omega)
      rw [if_pos hfull, if_neg hne, if_pos hfull, hrequest]
      exact .cons .getheaders .nil
    · rw [if_neg hfull, if_neg hfull, ite_self]
      exact .nil
  | @getdata start blks hblks hlength =>
    have hmem : ∀ blk ∈ blks, blk ∈ chain := fun blk hblk => List.mem_of_mem_drop (hblks.subset hblk)
    rw [answers_getdata, answersGetData, payload_roundTrip.2.1 _ (by rw [blockInvs, List.length_map]; omega)]
    have hdata := hserver.collectData peer.world.node.mempool hmem
    cases hcollect : collectData peer.world.node.mempool (blockInvs blks) peer.world.node.chain with
    | mk data bc =>
      rw [hcollect] at hdata
      cases hdata
      simp only [hcollect]
      exact sent_blocks hsize hblks

end Server

section Client

open CNodeHandler

variable [Crypto] [Memory] {params : ChainParams} {chain : List CBlock}

/-- The node has the first blocks of a longer chain, and none of the others. -/
structure Behind (params : ChainParams) (bc : CBlockchain) (chain : List CBlock) (n : Nat) : Prop where
  active : Active params bc (chain.take n)
  below : n ≤ chain.length
  unknown : ∀ i blk, n ≤ i → chain[i]? = some blk → bc.haveBlock blk.getHash = false

namespace Behind

variable {bc : CBlockchain} {n : Nat}

theorem touched {bc' : CBlockchain} (hbehind : Behind params bc chain n) (htouched : CBlockchain.Touched bc bc') :
    Behind params bc' chain n := by
  refine ⟨hbehind.active.touched htouched, hbehind.below, ?_⟩
  intro i blk hi hblk
  rw [CBlockchain.haveBlock, htouched.chain_eq]
  exact hbehind.unknown i blk hi hblk

theorem pos (hbehind : Behind params bc chain n) : 0 < n := by
  have hpos := List.length_pos_of_ne_nil hbehind.active.ne_nil
  rw [List.length_take] at hpos
  omega

theorem last (hbehind : Behind params bc chain n) :
    ∃ last, chain[n - 1]? = some last ∧ (chain.take n).getLast? = some last := by
  have hpos := hbehind.pos
  have hbelow := hbehind.below
  obtain ⟨last, hlast⟩ : ∃ last, chain[n - 1]? = some last := ⟨_, List.getElem?_eq_getElem (by omega)⟩
  refine ⟨last, hlast, ?_⟩
  rw [List.getLast?_eq_getElem?, List.length_take, min_eq_left hbelow, List.getElem?_take_of_lt (by omega), hlast]

theorem known (hbehind : Behind params bc chain n) {i : Nat} {blk : CBlock} (hi : i < n) (hblk : chain[i]? = some blk) :
    bc.haveBlock blk.getHash = true := by
  apply hbehind.active.haveBlock
  rw [← List.getElem?_take_of_lt hi] at hblk
  exact List.mem_of_getElem? hblk

/-- The headers that the node has not are those above its tip. -/
theorem missing (hbehind : Behind params bc chain n) {start : Nat} (hstart : start ≤ n) :
    ((((chain.drop start).take 2000).map CBlock.header).map CBlockHeader.getHash).filter
      (fun hash => !bc.haveBlock hash) = ((chain.drop n).take (start + 2000 - n)).map CBlock.getHash := by
  have hsplit : (chain.drop start).take 2000 =
      ((chain.drop start).take 2000).take (n - start) ++ (chain.drop n).take (start + 2000 - n) := by
    conv_lhs => rw [← List.take_append_drop (n - start) ((chain.drop start).take 2000)]
    rw [List.drop_take, List.drop_drop, show start + (n - start) = n by omega,
      show 2000 - (n - start) = start + 2000 - n by omega]
  have hhash : CBlockHeader.getHash ∘ CBlock.header = CBlock.getHash := rfl
  rw [List.map_map, hhash, hsplit, List.map_append, List.filter_append]
  have hold : (((((chain.drop start).take 2000).take (n - start)).map CBlock.getHash).filter
      (fun hash => !bc.haveBlock hash)) = [] := by
    rw [List.filter_eq_nil_iff]
    intro hash hhash
    obtain ⟨blk, hblk, rfl⟩ := List.mem_map.mp hhash
    obtain ⟨j, hj⟩ := List.mem_iff_getElem?.mp hblk
    have hlt := (List.getElem?_eq_some_iff.mp hj).1
    rw [List.length_take] at hlt
    rw [List.getElem?_take_of_lt (by omega), List.getElem?_take_of_lt (by rw [List.length_take] at hlt; omega),
      List.getElem?_drop] at hj
    rw [hbehind.known (by omega) hj]
    decide
  have hnew : (((chain.drop n).take (start + 2000 - n)).map CBlock.getHash).filter (fun hash => !bc.haveBlock hash) =
      ((chain.drop n).take (start + 2000 - n)).map CBlock.getHash := by
    rw [List.filter_eq_self]
    intro hash hhash
    obtain ⟨blk, hblk, rfl⟩ := List.mem_map.mp hhash
    obtain ⟨j, hj⟩ := List.mem_iff_getElem?.mp (List.mem_of_mem_take hblk)
    rw [List.getElem?_drop] at hj
    rw [hbehind.unknown (n + j) blk (by omega) hj]
    rfl
  rw [hold, hnew, List.nil_append]

theorem request {node : Node} (hbehind : Behind params node.chain chain n) :
    ∃ msg, headersRequest params node = [msg] ∧ SaysUp chain (.getheaders n) msg := by
  obtain ⟨last, hlast, htip⟩ := hbehind.last
  obtain ⟨rest, hrest, -, hrequest⟩ := headersRequest_eq hbehind.active htip
  have hmsg : SaysUp chain (.getheaders (n - 1 + 1))
      ⟨ascii "getheaders", buildGetHeadersPayload (last.getHash :: rest) 0⟩ := .getheaders hlast hrest
  rw [Nat.sub_add_cancel hbehind.pos] at hmsg
  exact ⟨_, hrequest, hmsg⟩

variable {server : CBlockchain}

/-- The next block extends the chain of the node. -/
theorem extendsAt (hbehind : Behind params bc chain n) (hserver : Active params server chain) (hright : RightBits params chain)
    {blk : CBlock} (hblk : chain[n]? = some blk) : ExtendsAt params bc blk (chain.take n) := by
  have hpos := hbehind.pos
  obtain ⟨last, hlast, htip⟩ := hbehind.last
  have hnext : chain[n - 1 + 1]? = some blk := by rw [Nat.sub_add_cancel hpos, hblk]
  refine ⟨hbehind.unknown n blk (Nat.le_refl n) hblk, hbehind.active.readChain, ?_, ?_, ?_⟩
  · intro last' hlast'
    rw [htip] at hlast'
    cases hlast'
    exact hserver.linked (n - 1) last blk hlast hnext
  · intro last' hlast'
    rw [htip] at hlast'
    cases hlast'
    have hbits := hright (n - 1) last blk hlast hnext
    rwa [Nat.sub_add_cancel hpos] at hbits
  · have htake : chain.take (n + 1) = chain.take n ++ [blk] := by rw [List.take_add_one, hblk]; rfl
    have hreplayed := hserver.replayed
    rw [← List.take_append_drop (n + 1) chain] at hreplayed
    obtain ⟨view, hview, -⟩ := replay_append_eq_ok hreplayed
    rw [htake] at hview
    exact ⟨view, hview⟩

variable {node : Node}

theorem handleBlock_known (hbehind : Behind params node.chain chain n) {i : Nat} {blk : CBlock} (hi : i < n)
    (hblk : chain[i]? = some blk) : node.handleBlock params blk = some ({}, node) := by
  rw [Node.handleBlock, hbehind.known hi hblk]
  rfl

/-- A block above the next one has no parent in the index. -/
theorem handleBlock_early (hbehind : Behind params node.chain chain n) (hserver : Active params server chain) {i : Nat}
    {blk : CBlock} (hi : n < i) (hblk : chain[i]? = some blk) :
    node.handleBlock params blk = some ({ error := "unknown prev block (need sync)" }, node) := by
  have hlt := (List.getElem?_eq_some_iff.mp hblk).1
  have hunknown := hbehind.unknown i blk hi.le hblk
  obtain ⟨parent, hparent⟩ : ∃ parent, chain[i - 1]? = some parent := ⟨_, List.getElem?_eq_getElem (by omega)⟩
  have hnext : chain[i - 1 + 1]? = some blk := by rw [Nat.sub_add_cancel (by omega), hblk]
  have hprev : blk.header.prevBlockHash = parent.getHash :=
    (checkBlockHeader_some_eq_ok_iff.mp (hserver.linked (i - 1) parent blk hparent hnext)).2.1
  have hnone := getIndex_of_haveBlock (hbehind.unknown (i - 1) parent (by omega) hparent)
  rw [← hprev] at hnone
  have haccept : CBlockchain.tryAcceptBlock params blk node.chain =
      .ok ({ error := "unknown prev block (need sync)" }, node.chain) := by
    unfold CBlockchain.tryAcceptBlock
    simp only [hunknown, hnone, Bool.false_eq_true, if_false]
  rw [Node.handleBlock, hunknown, if_neg (by decide), Node.acceptBlock, haccept]
  rfl

/-- The next block is accepted, and the node is then one block less behind. -/
theorem handleBlock_next (hbehind : Behind params node.chain chain n) (hserver : Active params server chain)
    (hright : RightBits params chain) {blk : CBlock} (hblk : chain[n]? = some blk) :
    ∃ r node', node.handleBlock params blk = some (r, node') ∧ r.ok = true ∧ Behind params node'.chain chain (n + 1) := by
  have hextends := hbehind.extendsAt hserver hright hblk
  obtain ⟨r, bc', haccept, hok, hactive, hknown⟩ := Node.acceptBlock_extends _ hbehind.active hextends
  have hlt := (List.getElem?_eq_some_iff.mp hblk).1
  have htake : chain.take (n + 1) = chain.take n ++ [blk] := by rw [List.take_add_one, hblk]; rfl
  have hnext : Behind params bc' chain (n + 1) := by
    refine ⟨htake ▸ hactive, hlt, ?_⟩
    intro i later hi hlater
    by_contra hhave
    obtain hsame | hold := hknown _ (Bool.eq_true_of_not_eq_false hhave)
    · have hindex := hserver.index_unique hlater hblk hsame
      omega
    · rw [hbehind.unknown i later (by omega) hlater] at hold
      cases hold
  refine ⟨r, { chain := bc', mempool := (node.mempool.removeSpent bc'.chain.view bc'.chain.height).2 }, ?_, hok, hnext⟩
  rw [Node.handleBlock, hextends.unknown, if_neg (by decide), haccept]

end Behind

omit [Memory] in
theorem replay_decodable {h : Nat} {view view' : CCoinsView} {blocks : List CBlock}
    (hreplay : replay h view blocks = .ok view') : ∀ blk ∈ blocks, blk.Decodable := by
  induction blocks generalizing h view with
  | nil => simp
  | cons first rest ih =>
    obtain ⟨⟨mid, fees⟩, hcheck, hrest⟩ := bind_eq_ok_iff.mp hreplay
    rw [List.forall_mem_cons]
    exact ⟨decodable_of_checkBlock hcheck, ih hrest⟩

/-- How a message is taken: it costs nothing and does not cut the peer off. -/
structure Welcome (verdict : Verdict) : Prop where
  points : verdict.points = 0
  accepted : verdict.refused = false

omit [Crypto] [Memory] in
theorem welcome_version {v : CVersionMessage} (hv : ¬ v.version < MIN_PROTOCOL_VERSION) :
    refusesVersion (serializeVersion v) = false := by
  rw [refusesVersion, payload_roundTrip.1]
  simp only [hv, decide_false]

variable (params) in
/-- The node that is ahead takes every message well, and keeps its chain. -/
theorem serve_judge (now : Int) (node : Node) {u : CatchUp.Up} {msg : CNetMessage} (hmsg : SaysUp chain u msg) :
    Welcome (judge params now node msg) ∧ node.Touched (judge params now node msg).node := by
  cases hmsg with
  | version hv =>
    rw [judge_version, welcome_version hv]
    exact ⟨⟨rfl, rfl⟩, node.touched_refl⟩
  | verack =>
    rw [judge_verack]
    exact ⟨⟨rfl, rfl⟩, node.touched_refl⟩
  | getheaders hblk hrest =>
    rw [judge_getheaders, judgeGetHeaders, payload_roundTrip.2.2.1 _ _ (by rw [List.length_cons]; omega)]
    exact ⟨⟨rfl, rfl⟩, collectHeaders_touched _ _ _ _, rfl⟩
  | headers hblks hlength =>
    rw [judge_headers, payload_roundTrip.2.2.2 _ (by rw [List.length_map]; exact hlength)]
    exact ⟨⟨rfl, rfl⟩, node.touched_refl⟩
  | getdata hblks hlength =>
    rw [judge_getdata, judgeGetData, payload_roundTrip.2.1 _ (by rw [blockInvs, List.length_map]; omega)]
    exact ⟨⟨rfl, rfl⟩, collectData_touched _ _ _, rfl⟩

omit [Crypto] [Memory] in
theorem unknownPrev_needSync : unknownPrev "unknown prev block (need sync)" = true := by decide

/-- The node that is behind takes a message as the protocol says. -/
def Reacting (params : ChainParams) (chain : List CBlock) (n : Nat) (d : CatchUp.Down) (out : List CNetMessage)
    (verdict : Verdict) : Prop :=
  ∃ n' ups, CatchUp.Reacts chain.length 2000 100 n d n' ups ∧ List.Forall₂ (SaysUp chain) ups out ∧ Welcome verdict ∧
    Behind params verdict.node.chain chain n'

namespace Behind

variable {server : CBlockchain} (env : Environment) {peer : Remote} {n : Nat} (now : Int)

theorem reacting_version (hbehind : Behind params peer.world.node.chain chain n) (hinbound : peer.world.inbound = false)
    {v : CVersionMessage} (hv : ¬ v.version < MIN_PROTOCOL_VERSION) :
    Reacting params chain n .version (answers params env peer ⟨ascii "version", serializeVersion v⟩)
      (judge params now peer.world.node ⟨ascii "version", serializeVersion v⟩) := by
  obtain ⟨request, hrequest, hasks⟩ := hbehind.request
  refine ⟨n, _, .version, ?_, ?_⟩
  · rw [answers_version, answersVersion, payload_roundTrip.1]
    simp only [hv, if_false, hinbound, Bool.false_eq_true]
    rw [sent_verack, hrequest]
    exact .cons .verack (.cons hasks .nil)
  · rw [judge_version, welcome_version hv]
    exact ⟨⟨rfl, rfl⟩, hbehind⟩

theorem reacting_verack (hbehind : Behind params peer.world.node.chain chain n) :
    Reacting params chain n .verack (answers params env peer ⟨ascii "verack", []⟩)
      (judge params now peer.world.node ⟨ascii "verack", []⟩) := by
  refine ⟨n, _, .verack, ?_, ?_⟩
  · rw [answers_verack]
    exact .nil
  · rw [judge_verack]
    exact ⟨⟨rfl, rfl⟩, hbehind⟩

/-- The node sends headers of its own; once it has the whole chain there are none above the tip. -/
theorem reacting_getheaders (hbehind : Behind params peer.world.node.chain chain n) (hserver : Active params server chain) :
    Reacting params chain n .getheaders
      (answers params env peer ⟨ascii "getheaders", buildGetHeadersPayload server.locator 0⟩)
      (judge params now peer.world.node ⟨ascii "getheaders", buildGetHeadersPayload server.locator 0⟩) := by
  obtain ⟨last, hlast, -⟩ := hserver.tip
  obtain ⟨rest, hlocator, hrest⟩ := hserver.locator hlast
  have hparse : parseGetHeadersPayload (buildGetHeadersPayload server.locator 0) = some (server.locator, 0) :=
    payload_roundTrip.2.2.1 _ _ (by rw [hlocator, List.length_cons]; omega)
  obtain ⟨h, hheaders⟩ := hbehind.active.handleGetHeaders_any server.locator
  refine ⟨n, [.headers (((chain.take n).drop h).take 2000).length], .getheaders ?_, ?_, ?_⟩
  · intro hall
    have hpos := hbehind.pos
    rw [List.getLast?_eq_getElem?, ← hall] at hlast
    have htip : (chain.take n)[n - 1]? = some last := by rw [List.getElem?_take_of_lt (by omega), hlast]
    have habove := hbehind.active.handleGetHeaders htip rest
    rw [← hlocator, hheaders, Nat.sub_add_cancel hpos, List.drop_eq_nil_of_le (List.length_take_le _ _), List.take_nil,
      List.map_nil, List.map_eq_nil_iff] at habove
    rw [habove, List.length_nil]
  · rw [answers_getheaders, answersGetHeaders, hparse]
    simp only
    rw [hheaders, sent_headers params (by rw [List.length_map]; exact List.length_take_le _ _)]
    refine .cons (.headers ?_ (List.length_take_le _ _)) .nil
    exact fun blk hblk => List.mem_of_mem_take (List.mem_of_mem_drop (List.mem_of_mem_take hblk))
  · rw [judge_getheaders, judgeGetHeaders, hparse]
    exact ⟨⟨rfl, rfl⟩, hbehind.touched (collectHeaders_touched _ _ _ _)⟩

/-- The node asks for the first hundred blocks it has not, and for more headers unless it has seen the last ones. -/
theorem reacting_headers (hbehind : Behind params peer.world.node.chain chain n) {start : Nat} (hstart : start ≤ n) :
    Reacting params chain n (.headers start)
      (answers params env peer ⟨ascii "headers", buildHeadersPayload (((chain.drop start).take 2000).map CBlock.header)⟩)
      (judge params now peer.world.node
        ⟨ascii "headers", buildHeadersPayload (((chain.drop start).take 2000).map CBlock.header)⟩) := by
  obtain ⟨request, hrequest, hasks⟩ := hbehind.request
  have hbelow := hbehind.below
  have hparse : parseHeadersPayload (buildHeadersPayload (((chain.drop start).take 2000).map CBlock.header)) =
      some (((chain.drop start).take 2000).map CBlock.header) :=
    payload_roundTrip.2.2.2 _ (by rw [List.length_map]; exact List.length_take_le _ _)
  have hverdict : Welcome (judge params now peer.world.node
      ⟨ascii "headers", buildHeadersPayload (((chain.drop start).take 2000).map CBlock.header)⟩) ∧
      Behind params (judge params now peer.world.node
        ⟨ascii "headers", buildHeadersPayload (((chain.drop start).take 2000).map CBlock.header)⟩).node.chain chain n := by
    rw [judge_headers, hparse]
    exact ⟨⟨rfl, rfl⟩, hbehind⟩
  have hlength : (((chain.drop start).take 2000).map CBlock.header).length = min 2000 (chain.length - start) := by
    rw [List.length_map, List.length_take, List.length_drop]
  have hmissing : ((chain.drop n).take (start + 2000 - n)).length = CatchUp.reach chain.length 2000 start - n := by
    rw [List.length_take, List.length_drop, CatchUp.reach]
    omega
  rw [answers_headers, answersHeaders, hparse]
  simp only [hbehind.missing hstart]
  by_cases hnew : n < CatchUp.reach chain.length 2000 start
  · -- Something is missing.
    have hreach := Nat.lt_min.mp hnew
    have hne : (chain.drop n).take (start + 2000 - n) ≠ [] := List.ne_nil_of_length_pos (by omega)
    have hheaders : ((chain.drop start).take 2000).map CBlock.header ≠ [] := List.ne_nil_of_length_pos (by omega)
    have hwant : ((((chain.drop n).take (start + 2000 - n)).map CBlock.getHash).take 100).map
        (fun hash => (⟨.BLOCK, hash⟩ : CInv)) = blockInvs (((chain.drop n).take (start + 2000 - n)).take 100) := by
      rw [blockInvs, ← List.map_take, List.map_map]
      rfl
    have hcount : (((chain.drop n).take (start + 2000 - n)).take 100).length =
        min 100 (CatchUp.reach chain.length 2000 start - n) := by rw [List.length_take, hmissing]
    refine ⟨n, _, .missing hnew, ?_, hverdict⟩
    rw [if_neg hheaders, hwant, if_neg (List.ne_nil_of_length_pos (by rw [blockInvs, List.length_map]; omega)),
      if_pos (Or.inl (List.ne_nil_of_length_pos (by rw [List.length_map]; omega))), sent_getdata params (by
        rw [blockInvs, List.length_map]; omega), hrequest, ← hcount]
    refine .cons (.getdata ?_ (by omega)) (.cons hasks .nil)
    exact (List.take_prefix _ _).trans (List.take_prefix _ _)
  · -- The node has all of these.
    have hnone : (chain.drop n).take (start + 2000 - n) = [] := List.eq_nil_of_length_eq_zero (by omega)
    simp only [hnone, List.map_nil, List.take_nil, if_true, List.nil_append, ne_eq, not_true_eq_false, false_or, ge_iff_le]
    rw [CatchUp.reach] at hnew
    by_cases hfull : start + 2000 ≤ n
    · refine ⟨n, _, .full hfull, ?_, hverdict⟩
      rw [if_neg (List.ne_nil_of_length_pos (by omega)), if_pos (by omega), hrequest]
      exact .cons hasks .nil
    · refine ⟨n, _, .last (by omega) (by omega), ?_, hverdict⟩
      rw [if_neg (show ¬ 2000 ≤ _ by omega), ite_self]
      exact .nil

theorem reacting_block (hbehind : Behind params peer.world.node.chain chain n) (hserver : Active params server chain)
    (hright : RightBits params chain) {height : Nat} {blk : CBlock} (hblk : chain[height]? = some blk) :
    Reacting params chain n (.block height) (answers params env peer ⟨ascii "block", serializeBlock blk⟩)
      (judge params now peer.world.node ⟨ascii "block", serializeBlock blk⟩) := by
  have hparse : deserializeBlock (serializeBlock blk) = some blk := by
    have hdecoded := deserializeBlock_serializeBlock (replay_decodable hserver.replayed blk (List.mem_of_getElem? hblk)) []
    rwa [List.append_nil] at hdecoded
  rw [answers_block, answersBlock, judge_block, judgeBlock, hparse]
  obtain hknown | rfl | hearly := Nat.lt_trichotomy height n
  · refine ⟨n, _, .known hknown, ?_, ?_⟩
    · simp only [hbehind.handleBlock_known hknown hblk]
      exact .nil
    · simp only [hbehind.handleBlock_known hknown hblk, Node.refusesBlock]
      exact ⟨⟨rfl, rfl⟩, hbehind⟩
  · obtain ⟨r, node', hhandled, hok, hnext⟩ := hbehind.handleBlock_next hserver hright hblk
    obtain ⟨request, hrequest, hasks⟩ := hnext.request
    simp only [hhandled, Node.refusesBlock, hok, if_true, Bool.not_true, Bool.false_and, Bool.false_eq_true, if_false]
    by_cases hresume : node'.chain.chain.height < peer.world.theirStartHeight.toInt
    · rw [if_pos hresume, hrequest]
      exact ⟨height + 1, _, .resumed, .cons hasks .nil, ⟨rfl, rfl⟩, hnext⟩
    · rw [if_neg hresume]
      exact ⟨height + 1, _, .accepted, .nil, ⟨rfl, rfl⟩, hnext⟩
  · obtain ⟨request, hrequest, hasks⟩ := hbehind.request
    refine ⟨n, _, .early hearly, ?_, ?_⟩
    · simp only [hbehind.handleBlock_early hserver hearly hblk, unknownPrev_needSync, Bool.false_eq_true, if_false, if_true]
      rw [hrequest]
      exact .cons hasks .nil
    · simp only [hbehind.handleBlock_early hserver hearly hblk, Node.refusesBlock, unknownPrev_needSync]
      exact ⟨⟨rfl, rfl⟩, hbehind⟩

theorem reacting (hbehind : Behind params peer.world.node.chain chain n) (hinbound : peer.world.inbound = false)
    (hserver : Active params server chain) (hright : RightBits params chain) {d : CatchUp.Down} {msg : CNetMessage}
    (hstarts : ∀ start, d = .headers start → start ≤ n) (hmsg : SaysDown chain server.locator d msg) :
    Reacting params chain n d (answers params env peer msg) (judge params now peer.world.node msg) := by
  cases hmsg with
  | version hv => exact hbehind.reacting_version env now hinbound hv
  | verack => exact hbehind.reacting_verack env now
  | getheaders => exact hbehind.reacting_getheaders env now hserver
  | headers => exact hbehind.reacting_headers env now (hstarts _ rfl)
  | block hblk => exact hbehind.reacting_block env now hserver hright hblk

end Behind

end Client

end cdx
