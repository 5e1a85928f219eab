import Cdx.Node.Answers
import Cdx.Node.Network
import Cdx.Transaction.Size

namespace cdx

open codec

/-! What a node with a given chain answers to requests for headers and blocks. -/

section Locator

theorem length_locatorFrom (bc : CBlockchain) {rounds : Nat} {h : Int} {locator : List UInt256}
    (hlength : locator.length ≤ 32) : (bc.locatorFrom rounds h locator).length ≤ 32 := by
  induction rounds generalizing h locator with
  | zero => exact hlength
  | succ rounds ih =>
    rw [CBlockchain.locatorFrom]
    split
    next hroom =>
      apply ih
      rw [List.length_append]
      have hone := Option.length_toList_le (o := bc.getBlockHashByHeight h)
      omega
    · exact hlength

theorem locatorFrom_starts (bc : CBlockchain) (rounds : Nat) (h : Int) (locator : List UInt256) :
    locator <+: bc.locatorFrom rounds h locator := by
  induction rounds generalizing h locator with
  | zero => exact List.prefix_refl _
  | succ rounds ih =>
    rw [CBlockchain.locatorFrom]
    split
    · exact (List.prefix_append _ _).trans (ih _ _)
    · exact List.prefix_refl _

/-- The locator starts with the tip. -/
theorem Active.locator [Crypto] [Memory] {params : ChainParams} {bc : CBlockchain} {blocks : List CBlock}
    (hactive : Active params bc blocks)
    {last : CBlock} (hlast : blocks.getLast? = some last) :
    ∃ rest, bc.locator = last.getHash :: rest ∧ rest.length ≤ 31 := by
  have hpos := List.length_pos_of_ne_nil hactive.ne_nil
  have hheight := hactive.height
  have hget : bc.getBlockHashByHeight bc.chain.height = some last.getHash := by
    rw [CBlockchain.getBlockHashByHeight, if_neg (by omega), hactive.byHeight, List.getElem?_map, hheight,
      show ((blocks.length : Int) - 1).toNat = blocks.length - 1 by omega, ← List.getLast?_eq_getElem?, hlast]
    rfl
  have hlength : bc.locator.length ≤ 32 := length_locatorFrom bc (by simp)
  obtain ⟨rest, hrest⟩ : [last.getHash] <+: bc.locator := by
    rw [CBlockchain.locator, show (bc.chain.height + 1).toNat = blocks.length - 1 + 1 by omega, CBlockchain.locatorFrom,
      if_pos (by simp; omega), hget]
    exact locatorFrom_starts bc _ _ _
  refine ⟨rest, hrest.symm, ?_⟩
  rw [← hrest, List.length_append, List.length_singleton] at hlength
  omega

end Locator

section Headers

variable [Crypto] [Memory] {params : ChainParams} {bc : CBlockchain} {blocks : List CBlock}

/-- Without a stop hash the loop collects all the headers there is room for. -/
theorem Active.collectHeaders_eq (hactive : Active params bc blocks) (room h : Nat) :
    (CBlockchain.collectHeaders 0 room h bc).1 = ((blocks.drop h).take room).map CBlock.header := by
  induction room generalizing bc h with
  | zero => rfl
  | succ room ih =>
    have hread := hactive.getBlockByHeight h
    have htouched := bc.getBlockByHeight_snd h
    by_cases hh : h < blocks.length
    · rw [List.getElem?_eq_getElem hh] at hread
      rw [List.drop_eq_getElem_cons hh, List.take_succ_cons, List.map_cons, CBlockchain.collectHeaders,
        if_pos (by rw [hactive.height]; omega)]
      cases hblk : bc.getBlockByHeight h with
      | mk blk mid =>
        rw [hblk] at hread htouched
        cases hread
        simp only [ne_eq, not_true_eq_false, false_and, if_false]
        exact congrArg _ (ih (hactive.touched htouched) (h + 1))
    · rw [List.drop_eq_nil_of_le (by omega), List.take_nil, List.map_nil]
      exact collectHeaders_of_lt (by rw [hactive.height]; omega) 0 (room + 1)

/-- A locator that starts on the chain is answered by the headers above its first entry. -/
theorem Active.handleGetHeaders (hactive : Active params bc blocks) {i : Nat} {blk : CBlock} (hblk : blocks[i]? = some blk)
    (rest : List UInt256) :
    (bc.handleGetHeaders (blk.getHash :: rest) 0).1 = ((blocks.drop (i + 1)).take 2000).map CBlock.header := by
  rw [CBlockchain.handleGetHeaders, CBlockchain.startHeight, hactive.indexed i blk hblk]
  exact hactive.collectHeaders_eq 2000 (i + 1)

/-- Any locator is answered by headers of the chain. -/
theorem Active.handleGetHeaders_any (hactive : Active params bc blocks) (locator : List UInt256) :
    ∃ h, (bc.handleGetHeaders locator 0).1 = ((blocks.drop h).take 2000).map CBlock.header := by
  have hstart := startHeight_eq bc locator
  cases hindexed : locator.findSome? bc.getIndex with
  | none =>
    rw [hindexed] at hstart
    refine ⟨0, ?_⟩
    rw [CBlockchain.handleGetHeaders, hstart]
    exact hactive.collectHeaders_eq 2000 0
  | some idx =>
    rw [hindexed] at hstart
    obtain ⟨hash, -, hidx⟩ := List.exists_of_findSome?_eq_some hindexed
    have hheight := hactive.heights hash idx hidx
    refine ⟨idx.height.toNat + 1, ?_⟩
    rw [CBlockchain.handleGetHeaders, hstart, Option.elim_some,
      show idx.height + 1 = ((idx.height.toNat + 1 : Nat) : Int) by omega]
    exact hactive.collectHeaders_eq 2000 _

/-- The inventory of some blocks. -/
def blockInvs (blks : List CBlock) : List CInv := blks.map fun blk => ⟨.BLOCK, blk.getHash⟩

omit [Crypto] [Memory] in
theorem block_ne_tx : InvType.BLOCK ≠ InvType.TX := by decide

/-- Blocks of the chain are found when they are asked for. -/
theorem Active.collectData (hactive : Active params bc blocks) (pool : CTxMemPool) {blks : List CBlock}
    (hblks : ∀ blk ∈ blks, blk ∈ blocks) :
    (CNodeHandler.collectData pool (blockInvs blks) bc).1 = ([], blks.map serializeBlock) := by
  induction blks generalizing bc with
  | nil => rfl
  | cons blk blks ih =>
    rw [List.forall_mem_cons] at hblks
    have hread : bc.readBlock blk.getHash = (some blk, bc.touch) := by
      rw [← hactive.stored blk hblks.1]
      rfl
    have hrest := ih (hactive.touched (Or.inr rfl : CBlockchain.Touched bc bc.touch)) hblks.2
    rw [blockInvs, List.map_cons, CNodeHandler.collectData, if_neg block_ne_tx, if_pos rfl, hread]
    simp only
    rw [← blockInvs, hrest]
    rfl

end Headers

section Sizes

theorem varIntSize_le (v : Nat) : varIntSize v ≤ 9 := by
  unfold varIntSize
  split
  · omega
  · split
    · omega
    · split <;> omega

theorem length_writeUint256 (hash : UInt256) : (writeUint256 hash).length = 32 := by simp [writeUint256]

theorem length_flatMap_of_forall {α : Type} {f : α → Bytes} {size : Nat} (hf : ∀ a, (f a).length = size)
    (items : List α) :
    (items.flatMap f).length = items.length * size := by
  simp only [List.length_flatMap, hf, List.map_const', List.sum_replicate, smul_eq_mul]

variable [Crypto] (params : ChainParams)

theorem sent_of_le {command : String} {payload : Bytes} (hcommand : (ascii command).length ≤ 12)
    (hpayload : payload.length ≤ MAX_MESSAGE_SIZE) :
    CNodeHandler.sent params command payload = [⟨ascii command, payload⟩] := by
  unfold CNodeHandler.sent buildMessage
  rw [if_neg (by omega)]

theorem sent_getheaders {locator : List UInt256} (hlocator : locator.length ≤ 32) :
    CNodeHandler.sent params "getheaders" (buildGetHeadersPayload locator 0) =
      [⟨ascii "getheaders", buildGetHeadersPayload locator 0⟩] := by
  apply sent_of_le params (by decide)
  have hcount := varIntSize_le locator.length
  rw [buildGetHeadersPayload, List.length_append, List.length_append, length_writeVarInt,
    length_flatMap_of_forall length_writeUint256, length_writeUint256, MAX_MESSAGE_SIZE]
  omega

theorem sent_headers {headers : List CBlockHeader} (hheaders : headers.length ≤ 2000) :
    CNodeHandler.sent params "headers" (buildHeadersPayload headers) =
      [⟨ascii "headers", buildHeadersPayload headers⟩] := by
  have hitem (hdr : CBlockHeader) : (headersItem hdr).length = 81 := by
    rw [headersItem, List.length_append, length_serializeBlockHeader]
    rfl
  apply sent_of_le params (by decide)
  have hcount := varIntSize_le headers.length
  rw [buildHeadersPayload, List.length_append, length_writeVarInt, length_flatMap_of_forall hitem, MAX_MESSAGE_SIZE]
  omega

theorem sent_getdata {inv : List CInv} (hinv : inv.length ≤ 500) :
    CNodeHandler.sent params "getdata" (serializeInv inv) = [⟨ascii "getdata", serializeInv inv⟩] := by
  have hitem (i : CInv) : (serializeInvItem i).length = 36 := by
    rw [serializeInvItem, List.length_append, length_writeU32, length_writeUint256]
  apply sent_of_le params (by decide)
  have hcount := varIntSize_le inv.length
  rw [serializeInv, List.length_append, length_writeVarInt, length_flatMap_of_forall hitem, MAX_MESSAGE_SIZE]
  omega

theorem sent_version {v : CVersionMessage} (hagent : v.userAgent.val.length ≤ 1000) :
    CNodeHandler.sent params "version" (serializeVersion v) = [⟨ascii "version", serializeVersion v⟩] := by
  apply sent_of_le params (by decide)
  have hword (w : UInt64) : (writeU64 w).length = 8 := length_leEncode 8 _
  have hbyte (b : UInt8) : (writeU8 b).length = 1 := rfl
  have hcount := varIntSize_le v.userAgent.val.length
  simp only [serializeVersion, List.length_append, length_writeU32, hword, hbyte, v.addrMe.property, v.addrYou.property,
    length_writeVarStr, scriptSize, MAX_MESSAGE_SIZE]
  omega

theorem sent_verack : CNodeHandler.sent params "verack" [] = [⟨ascii "verack", []⟩] :=
  sent_of_le params (by decide) (Nat.zero_le _)

end Sizes

namespace CNodeHandler

section Dispatch

variable [Crypto] [Memory] (params : ChainParams) (env : Environment) (peer : Remote) (payload : Bytes)

theorem answers_eq_dispatch (msg : CNetMessage) : answers params env peer msg = dispatch msg.command [] commands
    [answersVersion params peer.world.inbound peer.world.node msg.payload, [],
      answersInv params peer.world.node msg.payload, answersGetData params peer.world.node msg.payload,
      answersTx params peer.world.handshakeDone peer.world.node msg.payload,
      answersBlock params peer.world.theirStartHeight peer.world.node msg.payload,
      answersGetHeaders params peer.world.node msg.payload, answersHeaders params peer.world.node msg.payload,
      sent params "pong" msg.payload, answersGetAddr params (env.peerCount (peer.world.handled + 1))] := rfl

theorem answers_version : answers params env peer ⟨ascii "version", payload⟩ =
    answersVersion params peer.world.inbound peer.world.node payload :=
  (answers_eq_dispatch ..).trans (dispatch_at nodup_commands 0 rfl rfl _)

theorem answers_verack : answers params env peer ⟨ascii "verack", payload⟩ = [] :=
  (answers_eq_dispatch ..).trans (dispatch_at nodup_commands 1 rfl rfl _)

theorem answers_getdata : answers params env peer ⟨ascii "getdata", payload⟩ =
    answersGetData params peer.world.node payload :=
  (answers_eq_dispatch ..).trans (dispatch_at nodup_commands 3 rfl rfl _)

theorem answers_block : answers params env peer ⟨ascii "block", payload⟩ =
    answersBlock params peer.world.theirStartHeight peer.world.node payload :=
  (answers_eq_dispatch ..).trans (dispatch_at nodup_commands 5 rfl rfl _)

theorem answers_getheaders : answers params env peer ⟨ascii "getheaders", payload⟩ =
    answersGetHeaders params peer.world.node payload :=
  (answers_eq_dispatch ..).trans (dispatch_at nodup_commands 6 rfl rfl _)

theorem answers_headers : answers params env peer ⟨ascii "headers", payload⟩ =
    answersHeaders params peer.world.node payload :=
  (answers_eq_dispatch ..).trans (dispatch_at nodup_commands 7 rfl rfl _)

end Dispatch

end CNodeHandler

end cdx
