import Cdx.Blockchain.Invariants

namespace cdx

namespace CBlockchain

variable [Crypto] [Memory]

/-- The loop of `HandleGetHeaders` that looks for the first locator entry in the index. -/
def startHeight (bc : CBlockchain) : List UInt256 → Int
  | [] => 0
  | h :: rest =>
    match bc.getIndex h with
    | some idx => idx.height + 1
    | none => bc.startHeight rest

/-- The loop of `HandleGetHeaders` that collects headers from height `h` on, with room
    for so many more. -/
def collectHeaders (hashStop : UInt256) : Nat → Int → CBlockchain → List CBlockHeader × CBlockchain
  | 0, _, bc => ([], bc)
  | room + 1, h, bc =>
    if h ≤ bc.chain.height then
      match bc.getBlockByHeight h with
      | (none, bc) => ([], bc)
      | (some blk, bc) =>
        if hashStop ≠ 0 ∧ blk.getHash = hashStop then ([blk.header], bc)
        else
          let (rest, bc) := collectHeaders hashStop room (h + 1) bc
          (blk.header :: rest, bc)
    else ([], bc)

/-- The headers that `HandleGetHeaders` sends for a locator and a stop hash. -/
def handleGetHeaders (bc : CBlockchain) (locator : List UInt256) (hashStop : UInt256) :
    List CBlockHeader × CBlockchain :=
  collectHeaders hashStop 2000 (bc.startHeight locator) bc

end CBlockchain

section Reply

variable [Crypto] [Memory]

/-- The height of a hash on a chain of blocks. -/
def heightOf (blocks : List CBlock) (hash : UInt256) : Option Nat := blocks.findIdx? fun blk => blk.getHash = hash

/-- The height of the first locator entry that lies on the chain. -/
def firstActive (blocks : List CBlock) (locator : List UInt256) : Option Nat := locator.findSome? (heightOf blocks)

/-- The reply to a locator: a run of at most 2000 headers of the chain, from the first
    locator entry on the chain or from genesis, and on a block that the locator lists. It is
    empty only if no block follows. -/
structure Connecting (blocks : List CBlock) (locator : List UInt256) (sent : List CBlockHeader) : Prop where
  length : sent.length ≤ 2000
  run : sent <+: (blocks.drop ((firstActive blocks locator).elim 0 (· + 1))).map CBlock.header
  starts : (firstActive blocks locator).elim 0 (· + 1) < blocks.length → sent ≠ []
  listed : firstActive blocks locator ≠ none → ∀ first : CBlockHeader, sent.head? = some first →
    first.prevBlockHash ∈ locator

omit [Memory] in
theorem heightOf_eq_some {blocks : List CBlock} {hash : UInt256} {i : Nat} (hheight : heightOf blocks hash = some i) :
    ∃ blk, blocks[i]? = some blk ∧ blk.getHash = hash := by
  obtain ⟨hi, hhash, -⟩ := List.findIdx?_eq_some_iff_getElem.mp hheight
  exact ⟨blocks[i], List.getElem?_eq_getElem hi, of_decide_eq_true hhash⟩

omit [Memory] in
theorem firstActive_eq_some {blocks : List CBlock} {locator : List UInt256} {i : Nat}
    (hfirst : firstActive blocks locator = some i) : ∃ blk, blocks[i]? = some blk ∧ blk.getHash ∈ locator := by
  obtain ⟨hash, hmem, hheight⟩ := List.exists_of_findSome?_eq_some hfirst
  obtain ⟨blk, hblk, rfl⟩ := heightOf_eq_some hheight
  exact ⟨blk, hblk, hmem⟩

omit [Memory] in
theorem firstActive_genesis (g : CBlock) (rest : List CBlock) : firstActive (g :: rest) [g.getHash] = some 0 := by
  simp [firstActive, heightOf, List.findIdx?_cons]

omit [Memory] [Crypto] in
theorem startHeight_eq (bc : CBlockchain) (locator : List UInt256) :
    bc.startHeight locator = (locator.findSome? bc.getIndex).elim 0 fun idx => idx.height + 1 := by
  induction locator with
  | nil => rfl
  | cons h rest ih =>
    rw [CBlockchain.startHeight, List.findSome?_cons]
    cases bc.getIndex h with
    | none => exact ih
    | some idx => rfl

/-- The collecting loop takes headers of the active chain in order, at most as many as
    there is room for. -/
theorem Active.collectHeaders {params : ChainParams} {bc : CBlockchain} {blocks : List CBlock}
    (hactive : Active params bc blocks) (hashStop : UInt256) (room h : Nat) :
    (CBlockchain.collectHeaders hashStop room h bc).1 <+: (blocks.drop h).map CBlock.header ∧
      (CBlockchain.collectHeaders hashStop room h bc).1.length ≤ room := by
  induction room generalizing bc h with
  | zero => exact ⟨List.nil_prefix, le_refl 0⟩
  | succ room ih =>
    have hread := hactive.getBlockByHeight h
    have htouched := bc.getBlockByHeight_snd h
    unfold CBlockchain.collectHeaders
    split
    · split
      · exact ⟨List.nil_prefix, Nat.zero_le _⟩
      next blk next heq =>
        rw [heq] at hread htouched
        have hdrop : (blocks.drop h).map CBlock.header = blk.header :: (blocks.drop (h + 1)).map CBlock.header := by
          rw [List.drop_eq_getElem?_toList_append, ← hread]
          rfl
        rw [hdrop]
        split
        · exact ⟨List.prefix_cons_inj _ |>.mpr List.nil_prefix, Nat.succ_le_succ (Nat.zero_le _)⟩
        · obtain ⟨hrest, hlength⟩ := ih (hactive.touched htouched) (h + 1)
          exact ⟨(List.prefix_cons_inj _).mpr hrest, Nat.succ_le_succ hlength⟩
    · exact ⟨List.nil_prefix, Nat.zero_le _⟩

/-- The loop sends at least one header from any height of the active chain. -/
theorem Active.collectHeaders_ne_nil {params : ChainParams} {bc : CBlockchain} {blocks : List CBlock}
    (hactive : Active params bc blocks) (hashStop : UInt256) (room : Nat) {h : Nat} (hh : h < blocks.length) :
    (CBlockchain.collectHeaders hashStop (room + 1) h bc).1 ≠ [] := by
  have hread := hactive.getBlockByHeight h
  rw [List.getElem?_eq_getElem hh] at hread
  unfold CBlockchain.collectHeaders
  rw [if_pos (by rw [hactive.height]; omega)]
  split
  next heq =>
    rw [heq] at hread
    cases hread
  · split <;> exact List.cons_ne_nil _ _

/-- Above the tip there is nothing to send. -/
theorem collectHeaders_of_lt {bc : CBlockchain} {h : Int} (hh : bc.chain.height < h) (hashStop : UInt256) (room : Nat) :
    (CBlockchain.collectHeaders hashStop room h bc).1 = [] := by
  cases room with
  | zero => rfl
  | succ room =>
    unfold CBlockchain.collectHeaders
    rw [if_neg (by omega)]

/-- A run of headers after a locator entry on the chain starts with a child of that entry. -/
theorem Active.listed {params : ChainParams} {bc : CBlockchain} {blocks : List CBlock} (hactive : Active params bc blocks)
    {locator : List UInt256} {i : Nat} (hfirst : firstActive blocks locator = some i) {sent : List CBlockHeader}
    (hsent : sent <+: (blocks.drop (i + 1)).map CBlock.header) {first : CBlockHeader} (hhead : sent.head? = some first) :
    first.prevBlockHash ∈ locator := by
  obtain ⟨parent, hparent, hlisted⟩ := firstActive_eq_some hfirst
  obtain ⟨rest, hsplit⟩ := hsent
  have hchild : (blocks[i + 1]?).map CBlock.header = some first := by
    rw [← List.head?_drop, ← List.head?_map, ← hsplit, List.head?_append, hhead]
    rfl
  obtain ⟨child, hblk, rfl⟩ := Option.map_eq_some_iff.mp hchild
  have hheader := hactive.linked i parent child hparent hblk
  rw [(checkBlockHeader_some_eq_ok_iff.mp hheader).2.1]
  exact hlisted

theorem Active.connecting_of_start {params : ChainParams} {bc : CBlockchain} {blocks : List CBlock}
    (hactive : Active params bc blocks) {locator : List UInt256} (hashStop : UInt256)
    (hstart : bc.startHeight locator = ((firstActive blocks locator).elim 0 (· + 1) : Nat)) :
    Connecting blocks locator (bc.handleGetHeaders locator hashStop).1 := by
  rw [CBlockchain.handleGetHeaders, hstart]
  obtain ⟨hrun, hlength⟩ := hactive.collectHeaders hashStop 2000 ((firstActive blocks locator).elim 0 (· + 1))
  refine ⟨hlength, hrun, fun hfollows => hactive.collectHeaders_ne_nil hashStop 1999 hfollows, ?_⟩
  intro hsome first hhead
  obtain ⟨i, hfirst⟩ := Option.ne_none_iff_exists'.mp hsome
  rw [hfirst] at hrun hhead
  exact hactive.listed hfirst hrun hhead

/-- Two runs of headers of the chain that share their first one start at the same height. -/
theorem Active.start_unique {params : ChainParams} {bc : CBlockchain} {blocks : List CBlock}
    (hactive : Active params bc blocks) {sent : List CBlockHeader} (hne : sent ≠ []) {i j : Nat}
    (hi : sent <+: (blocks.drop i).map CBlock.header) (hj : sent <+: (blocks.drop j).map CBlock.header) : i = j := by
  obtain ⟨first, rest, rfl⟩ := List.exists_cons_of_ne_nil hne
  have hat : ∀ k, first :: rest <+: (blocks.drop k).map CBlock.header →
      ∃ blk : CBlock, blocks[k]? = some blk ∧ blk.header = first := by
    rintro k ⟨tail, hsplit⟩
    have hhead : (blocks[k]?).map CBlock.header = some first := by
      rw [← List.head?_drop, ← List.head?_map, ← hsplit]
      rfl
    exact Option.map_eq_some_iff.mp hhead
  obtain ⟨a, ha, haheader⟩ := hat i hi
  obtain ⟨b, hb, hbheader⟩ := hat j hj
  exact hactive.index_unique ha hb (by rw [CBlock.getHash, CBlock.getHash, haheader, hbheader])

/-- The reply connects exactly when the first locator entry in the index is no higher or
    lower than the first one on the active chain, or that one is the tip and the other not below it. -/
theorem reachable_connecting_iff {params : ChainParams} {bc : CBlockchain} (hreachable : Reachable params bc)
    {blocks : List CBlock} (hchain : bc.readChain = some blocks) (locator : List UInt256) (hashStop : UInt256) :
    Connecting blocks locator (bc.handleGetHeaders locator hashStop).1 ↔
      ∀ idx, locator.findSome? bc.getIndex = some idx →
        firstActive blocks locator = some idx.height.toNat ∨
          bc.chain.height ≤ idx.height ∧ firstActive blocks locator = some bc.chain.height.toNat := by
  obtain ⟨blocks', hactive⟩ := hreachable.active
  obtain rfl : blocks' = blocks := Option.some.inj (hactive.readChain.symm.trans hchain)
  have hstart := startHeight_eq bc locator
  cases hindexed : locator.findSome? bc.getIndex with
  | none =>
    rw [hindexed] at hstart
    have hnone : firstActive blocks' locator = none := by
      rw [firstActive, List.findSome?_eq_none_iff]
      intro hash hmem
      by_contra hsome
      obtain ⟨i, hi⟩ := Option.ne_none_iff_exists'.mp hsome
      obtain ⟨blk, hblk, rfl⟩ := heightOf_eq_some hi
      have habsent := List.findSome?_eq_none_iff.mp hindexed blk.getHash hmem
      rw [hactive.indexed i blk hblk] at habsent
      cases habsent
    refine iff_of_true (hactive.connecting_of_start hashStop ?_) (fun idx hidx => by cases hidx)
    rw [hstart, hnone]
    rfl
  | some idx =>
    rw [hindexed] at hstart
    obtain ⟨hash, -, hidx⟩ := List.exists_of_findSome?_eq_some hindexed
    have hheight := hactive.heights hash idx hidx
    obtain ⟨i, hi⟩ : ∃ i : Nat, idx.height = i := ⟨idx.height.toNat, by omega⟩
    have hstartNat : bc.startHeight locator = (i + 1 : Nat) := by
      rw [hstart, Option.elim_some, hi]
      rfl
    have hempty (htip : bc.chain.height ≤ i) : (bc.handleGetHeaders locator hashStop).1 = [] := by
      rw [CBlockchain.handleGetHeaders, hstartNat]
      exact collectHeaders_of_lt (by omega) hashStop 2000
    simp only [Option.some.injEq, forall_eq', hi, Int.toNat_natCast]
    constructor
    · intro hconnecting
      by_cases hbelow : i + 1 < blocks'.length
      · -- Both runs start with a header that was sent.
        left
        have hrun := (hactive.collectHeaders hashStop 2000 (i + 1)).1
        have hne := hactive.collectHeaders_ne_nil hashStop 1999 hbelow
        have hclaimed := hconnecting.run
        rw [CBlockchain.handleGetHeaders, hstartNat] at hclaimed
        have hsame := hactive.start_unique hne hrun hclaimed
        cases hfirst : firstActive blocks' locator with
        | none =>
          rw [hfirst] at hsame
          cases hsame
        | some j =>
          rw [hfirst] at hsame
          rw [Nat.add_right_cancel hsame]
      · -- Nothing was sent, so nothing follows the first entry on the chain.
        right
        have hlast : blocks'.length ≤ (firstActive blocks' locator).elim 0 (· + 1) := by
          by_contra hfollows
          exact hconnecting.starts (by omega) (hempty (by rw [hactive.height]; omega))
        refine ⟨by rw [hactive.height]; omega, ?_⟩
        rw [hactive.height]
        cases hfirst : firstActive blocks' locator with
        | none =>
          rw [hfirst] at hlast
          exact absurd (List.length_eq_zero_iff.mp (Nat.le_zero.mp hlast)) hactive.ne_nil
        | some j =>
          obtain ⟨blk, hblk, -⟩ := firstActive_eq_some hfirst
          have hj := (List.getElem?_eq_some_iff.mp hblk).1
          rw [hfirst, Option.elim_some] at hlast
          rw [show ((blocks'.length : Int) - 1).toNat = j by omega]
    · rintro (hfirst | ⟨htip, hlast⟩)
      · apply hactive.connecting_of_start hashStop
        rw [hstartNat, hfirst]
        rfl
      · rw [hempty htip]
        refine ⟨Nat.zero_le _, List.nil_prefix, fun hfollows => ?_, fun _ first hhead => by cases hhead⟩
        rw [hlast, Option.elim_some, hactive.height] at hfollows
        omega

end Reply

section

attribute [local instance] toolCrypto zeroMemory

/-- A block on the heavy one. -/
def heavyChild : CBlock :=
  regtestBlock heavyBlock.getHash [regtestCoinbase 2] (CDX_GENESIS_TIMESTAMP + 7) 0x2000ffff 223

/-- Digests of the header of the child, with those of the blocks below it. -/
def childDigests : List (Bytes × Bytes) := digests ++ [
  ([0x01, 0x00, 0x00, 0x00, 0x71, 0xd5, 0x48, 0x1f, 0xaf, 0xdf, 0x36, 0x60, 0x3c, 0x83, 0x5d, 0x1b, 0xb4, 0x27, 0x6d,
    0x13, 0x09, 0x46, 0x19, 0x77, 0xc0, 0xfc, 0xb2, 0xec, 0xea, 0xac, 0xfc, 0xb0, 0x2d, 0x59, 0x5e, 0x00, 0xca, 0xa8,
    0x4d, 0x04, 0x53, 0x7a, 0x8a, 0x3e, 0x2c, 0xf6, 0xb5, 0x5f, 0xed, 0x9f, 0xed, 0x3b, 0x80, 0x27, 0x05, 0x42, 0x71,
    0xd0, 0x26, 0xc9, 0x64, 0xa5, 0x42, 0x22, 0xe1, 0x92, 0xc3, 0x27, 0x87, 0x64, 0x5a, 0x66, 0xff, 0xff, 0x00, 0x20,
    0xdf, 0x00, 0x00, 0x00],
   [0xad, 0xfc, 0x8b, 0x01, 0x66, 0x6e, 0xf9, 0x82, 0x89, 0x6d, 0x42, 0x54, 0x0e, 0xfd, 0x67, 0x26, 0xa5, 0xad, 0x1e,
     0xd2, 0xcb, 0xa7, 0xb0, 0x67, 0x33, 0x43, 0x27, 0x19, 0x1b, 0x10, 0x88, 0xd4]),
  ([0xad, 0xfc, 0x8b, 0x01, 0x66, 0x6e, 0xf9, 0x82, 0x89, 0x6d, 0x42, 0x54, 0x0e, 0xfd, 0x67, 0x26, 0xa5, 0xad, 0x1e,
    0xd2, 0xcb, 0xa7, 0xb0, 0x67, 0x33, 0x43, 0x27, 0x19, 0x1b, 0x10, 0x88, 0xd4],
   [0x00, 0xc0, 0x8d, 0x05, 0x1d, 0xaf, 0x40, 0x7e, 0x63, 0xb8, 0x1f, 0x42, 0x96, 0xff, 0xa8, 0x0a, 0x26, 0xfe, 0xc7,
     0x58, 0x92, 0xef, 0xa2, 0x1d, 0x51, 0x66, 0x14, 0x1c, 0x8c, 0xc6, 0xcc, 0x00])]

theorem childDigests_right : ∀ entry ∈ childDigests, sha256Full entry.1 = entry.2 := by
  rw [childDigests, List.forall_mem_append]
  exact ⟨digests_right, by decide +kernel⟩

/-- A peer that has only the genesis block gets the header after it. -/
theorem reachable_connecting_genesis : ∃ bc blocks, Reachable regtestParams bc ∧ bc.readChain = some blocks ∧
    Connecting blocks [(getGenesisBlock regtestParams).getHash]
      (bc.handleGetHeaders [(getGenesisBlock regtestParams).getHash] 0).1 := by
  have hevaluated : (regtestAfter [firstBlock]).map (fun bc => (bc.chain.byHeight[0]?,
      (bc.getIndex (getGenesisBlock regtestParams).getHash).map CBlockIndex.height)) =
      some (some (getGenesisBlock regtestParams).getHash, some 0) := by
    rw [← tableCrypto_eq digests_right]
    decide +kernel
  obtain ⟨bc, hbc, heq⟩ := Option.map_eq_some_iff.mp hevaluated
  have hfirst : bc.chain.byHeight[0]? = some (getGenesisBlock regtestParams).getHash := congrArg Prod.fst heq
  have hreachable := reachable_of_regtestAfter hbc
  obtain ⟨blocks, hactive⟩ := hreachable.active
  refine ⟨bc, blocks, hreachable, hactive.readChain,
    (reachable_connecting_iff hreachable hactive.readChain [(getGenesisBlock regtestParams).getHash] 0).mpr ?_⟩
  intro idx hidx
  obtain ⟨hash, hmem, hentry⟩ := List.exists_of_findSome?_eq_some hidx
  rw [List.mem_singleton.mp hmem] at hentry
  have hheight : idx.height = 0 := by
    have hlookup := congrArg Prod.snd heq
    rw [hentry] at hlookup
    exact Option.some.inj hlookup
  left
  rw [hactive.byHeight, List.getElem?_map] at hfirst
  obtain ⟨g, hg, hhash⟩ := Option.map_eq_some_iff.mp hfirst
  obtain ⟨rest, rfl⟩ : ∃ rest, blocks = g :: rest := by
    cases blocks with
    | nil => cases hg
    | cons first rest =>
      cases hg
      exact ⟨rest, rfl⟩
  rw [hheight, ← hhash, firstActive_genesis]
  rfl

/-- After a reorganisation a peer on the old branch gets the header above the height of its
    own tip, whose parent it does not know. -/
theorem connecting_fails_staleBranch : ∃ bc blocks, Reachable regtestParams bc ∧ bc.readChain = some blocks ∧
    ¬ Connecting blocks [firstBlock.getHash, (getGenesisBlock regtestParams).getHash]
      (bc.handleGetHeaders [firstBlock.getHash, (getGenesisBlock regtestParams).getHash] 0).1 := by
  have hevaluated : (regtestAfter [firstBlock, heavyBlock, heavyChild]).map (fun bc => (bc.chain.byHeight[0]?,
      (bc.handleGetHeaders [firstBlock.getHash, (getGenesisBlock regtestParams).getHash] 0).1)) =
      some (some (getGenesisBlock regtestParams).getHash, [heavyChild.header]) ∧
      heavyChild.header.prevBlockHash ∉ [firstBlock.getHash, (getGenesisBlock regtestParams).getHash] := by
    rw [← tableCrypto_eq childDigests_right]
    decide +kernel
  obtain ⟨bc, hbc, heq⟩ := Option.map_eq_some_iff.mp hevaluated.1
  simp only [Prod.mk.injEq] at heq
  have hreachable := reachable_of_regtestAfter hbc
  obtain ⟨blocks, hactive⟩ := hreachable.active
  refine ⟨bc, blocks, hreachable, hactive.readChain, ?_⟩
  intro hconnecting
  apply hevaluated.2
  apply hconnecting.listed _ heavyChild.header (by rw [heq.2]; rfl)
  -- The locator has an entry on the active chain: the genesis block.
  intro hnone
  have habsent := List.findSome?_eq_none_iff.mp hnone _ (List.mem_cons_of_mem _ (List.mem_singleton_self _))
  rw [hactive.byHeight, List.getElem?_map] at heq
  obtain ⟨g, hg, hhash⟩ := Option.map_eq_some_iff.mp heq.1
  rw [heightOf, List.findIdx?_eq_none_iff] at habsent
  exact absurd hhash (of_decide_eq_false (habsent g (List.mem_of_getElem? hg)))

end

end cdx
