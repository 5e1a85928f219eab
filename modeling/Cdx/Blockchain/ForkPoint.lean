import Cdx.Blockchain.Regtest
import Cdx.Lib.Loop

namespace cdx

/-! `FindForkHeight`: where the branch of an indexed block leaves the active chain. -/

/-- How a run of `FindForkHeight` ends: it returns a height, or it reads `byHeight` behind its end. -/
inductive ForkSearch
  | returned (height : Int)
  | outOfBounds (i : Nat)
deriving DecidableEq

/-- The variables of the loop. -/
structure ForkCursor where
  h : Int
  cur : UInt256
  idx : CBlockIndex

namespace CBlockchain

/-- One round of the loop of `FindForkHeight`, at a block and its index entry. -/
def forkRound (bc : CBlockchain) (s : ForkCursor) : ForkSearch ⊕ ForkCursor :=
  if s.h ≥ 0 then
    match bc.chain.byHeight[s.h.toNat]? with
    | none => .inl (.outOfBounds s.h.toNat)
    | some active =>
      if active = s.cur then .inl (.returned s.h)
      else
        match bc.getIndex s.idx.prevHash with
        | none => .inl (.returned (-1))
        | some prev => .inr ⟨prev.height, s.idx.prevHash, prev⟩
  else .inl (.returned (-1))

/-- The height is clamped to that of the chain once, before the loop. -/
def findForkHeight (bc : CBlockchain) (fuel : Nat) (hash : UInt256) : Option ForkSearch :=
  match bc.getIndex hash with
  | none => some (.returned (-1))
  | some idx => loop.run bc.forkRound fuel ⟨if idx.height > bc.chain.height then bc.chain.height else idx.height, hash, idx⟩

/-- The block itself and, down to genesis, what its index entries name as parents. -/
inductive Ancestor (bc : CBlockchain) : UInt256 → UInt256 → Prop
  | self {hash : UInt256} : Ancestor bc hash hash
  | parent {hash anc : UInt256} {entry : CBlockIndex} (hentry : bc.getIndex hash = some entry) (hheight : 0 < entry.height)
      (hrest : Ancestor bc entry.prevHash anc) : Ancestor bc hash anc

/-- The height of the highest block that is on the active chain and an ancestor of the block. -/
structure IsForkHeight (bc : CBlockchain) (hash : UInt256) (h : Nat) : Prop where
  reached : ∃ anc, bc.Ancestor hash anc ∧ bc.chain.byHeight[h]? = some anc
  highest : ∀ h' anc, bc.Ancestor hash anc → bc.chain.byHeight[h']? = some anc → h' ≤ h

/-- With enough fuel `FindForkHeight` returns this height, and has read `byHeight` inside its bounds only. -/
def FindsFork (bc : CBlockchain) (hash : UInt256) : Prop :=
  ∃ fuel h : Nat, bc.findForkHeight fuel hash = some (.returned h) ∧ bc.IsForkHeight hash h

/-- Every index entry but that of genesis has its parent one height below. -/
structure IndexTree (bc : CBlockchain) : Prop where
  root : ∀ hash entry, bc.getIndex hash = some entry → entry.height = 0 → bc.chain.byHeight[0]? = some hash
  parent : ∀ hash entry, bc.getIndex hash = some entry → 0 < entry.height →
    ∃ prev, bc.getIndex entry.prevHash = some prev ∧ prev.height + 1 = entry.height

section Search

variable {bc : CBlockchain}

theorem forkRound_outOfBounds {h : Nat} (hbeyond : bc.chain.byHeight.length ≤ h) (cur : UInt256) (idx : CBlockIndex) :
    bc.forkRound ⟨h, cur, idx⟩ = .inl (.outOfBounds h) := by
  rw [forkRound, if_pos (Int.natCast_nonneg h)]
  simp only [Int.toNat_natCast, List.getElem?_eq_none hbeyond]

theorem forkRound_found {h : Nat} {cur : UInt256} (hfound : bc.chain.byHeight[h]? = some cur) (idx : CBlockIndex) :
    bc.forkRound ⟨h, cur, idx⟩ = .inl (.returned h) := by
  rw [forkRound, if_pos (Int.natCast_nonneg h)]
  simp only [Int.toNat_natCast, hfound, if_true]

theorem forkRound_next {h : Nat} {cur : UInt256} {idx prev : CBlockIndex} (hinside : h < bc.chain.byHeight.length)
    (hother : bc.chain.byHeight[h]? ≠ some cur) (hprev : bc.getIndex idx.prevHash = some prev) :
    bc.forkRound ⟨h, cur, idx⟩ = .inr ⟨prev.height, idx.prevHash, prev⟩ := by
  obtain ⟨active, hactive⟩ : ∃ active, bc.chain.byHeight[h]? = some active := ⟨_, List.getElem?_eq_getElem hinside⟩
  have hne : active ≠ cur := fun heq => hother (by rw [hactive, heq])
  rw [forkRound, if_pos (Int.natCast_nonneg h)]
  simp only [Int.toNat_natCast, hactive, if_neg hne, hprev]

/-- The fork of a block that is not on the active chain is that of its parent. -/
theorem IsForkHeight.of_parent {hash : UInt256} {entry : CBlockIndex} {h : Nat} (hentry : bc.getIndex hash = some entry)
    (hheight : 0 < entry.height) (hoff : hash ∉ bc.chain.byHeight) (hfork : bc.IsForkHeight entry.prevHash h) :
    bc.IsForkHeight hash h := by
  obtain ⟨⟨anc, hanc, hat⟩, hhighest⟩ := hfork
  refine ⟨⟨anc, .parent hentry hheight hanc, hat⟩, fun h' anc' hanc' hat' => ?_⟩
  cases hanc' with
  | self => exact absurd (List.mem_of_getElem? hat') hoff
  | parent hentry' _ hrest =>
    obtain rfl := Option.some.inj (hentry'.symm.trans hentry)
    exact hhighest h' anc' hrest hat'

end Search

end CBlockchain

section Reached

variable [Crypto] [Memory] {params : ChainParams} {bc : CBlockchain} {blocks : List CBlock}

open CBlockchain

/-- A block of the active chain is indexed under its height. -/
theorem Active.height_of_byHeight (hactive : Active params bc blocks) {h : Nat} {hash : UInt256} {entry : CBlockIndex}
    (hat : bc.chain.byHeight[h]? = some hash) (hentry : bc.getIndex hash = some entry) : entry.height = h := by
  rw [hactive.byHeight, List.getElem?_map] at hat
  obtain ⟨blk, hblk, rfl⟩ := Option.map_eq_some_iff.mp hat
  rw [hactive.indexed h blk hblk] at hentry
  cases hentry
  rfl

/-- No ancestor of a block stands on the active chain above the block's own height. -/
theorem Active.ancestor_le (hactive : Active params bc blocks) (htree : IndexTree bc) {hash anc : UInt256} (hanc : bc.Ancestor hash anc)
    {entry : CBlockIndex} (hentry : bc.getIndex hash = some entry) {h : Nat} (hat : bc.chain.byHeight[h]? = some anc) :
    (h : Int) ≤ entry.height := by
  induction hanc generalizing entry with
  | self => exact (hactive.height_of_byHeight hat hentry).ge
  | @parent hash anc entry' hentry' hheight hrest ih =>
    obtain rfl : entry' = entry := Option.some.inj (hentry'.symm.trans hentry)
    obtain ⟨prev, hprev, hbelow⟩ := htree.parent _ _ hentry hheight
    have hle := ih hprev hat
    omega

/-- A block that is not at its own height is nowhere on the active chain. -/
theorem Active.notMem_byHeight (hactive : Active params bc blocks) {hash : UInt256} {entry : CBlockIndex} {n : Nat}
    (hentry : bc.getIndex hash = some entry) (hheight : entry.height = n) (hother : bc.chain.byHeight[n]? ≠ some hash) :
    hash ∉ bc.chain.byHeight := by
  intro hmem
  obtain ⟨h, hat⟩ := List.mem_iff_getElem?.mp hmem
  have hown := hactive.height_of_byHeight hat hentry
  obtain rfl : h = n := by omega
  exact hother hat

/-- The fork of a block on the active chain is at the block itself. -/
theorem Active.isForkHeight_self (hactive : Active params bc blocks) (htree : IndexTree bc) {n : Nat} {hash : UInt256}
    {entry : CBlockIndex} (hentry : bc.getIndex hash = some entry) (hheight : entry.height = n)
    (hfound : bc.chain.byHeight[n]? = some hash) : bc.IsForkHeight hash n := by
  refine ⟨⟨hash, .self, hfound⟩, fun h' anc hanc hat => ?_⟩
  have hle := hactive.ancestor_le htree hanc hentry hat
  omega

/-- Below the height of the chain the loop finds the fork: at every block it takes either the block is on
    the active chain, or the parent is one height below. -/
theorem Active.loop_finds (hactive : Active params bc blocks) (htree : IndexTree bc) {n : Nat} {hash : UInt256} {entry : CBlockIndex}
    (hentry : bc.getIndex hash = some entry) (hheight : entry.height = n) (hinside : n < bc.chain.byHeight.length) :
    ∃ h : Nat, loop.run bc.forkRound (n + 1) ⟨n, hash, entry⟩ = some (.returned h) ∧ bc.IsForkHeight hash h := by
  induction n generalizing hash entry with
  | zero =>
    have hroot := htree.root hash entry hentry hheight
    exact ⟨0, loop.run_of_ends (forkRound_found hroot entry) 0, hactive.isForkHeight_self htree hentry hheight hroot⟩
  | succ n ih =>
    by_cases hfound : bc.chain.byHeight[n + 1]? = some hash
    · exact ⟨n + 1, loop.run_of_ends (forkRound_found hfound entry) _, hactive.isForkHeight_self htree hentry hheight hfound⟩
    · obtain ⟨prev, hprev, hbelow⟩ := htree.parent hash entry hentry (by omega)
      have hprevHeight : prev.height = n := by omega
      obtain ⟨h, hrun, hfork⟩ := ih hprev hprevHeight (by omega)
      refine ⟨h, ?_, hfork.of_parent hentry (by omega) (hactive.notMem_byHeight hentry hheight hfound)⟩
      rw [loop.run_of_goesOn (forkRound_next hinside hfound hprev), hprevHeight]
      exact hrun

theorem Active.findsFork_iff (hactive : Active params bc blocks) (htree : IndexTree bc) {hash : UInt256} {entry : CBlockIndex}
    (hentry : bc.getIndex hash = some entry) : bc.FindsFork hash ↔ entry.height ≤ bc.chain.height + 1 := by
  have hlength : bc.chain.byHeight.length = blocks.length := by rw [hactive.byHeight, List.length_map]
  have hpos := List.length_pos_of_ne_nil hactive.ne_nil
  have hchain := hactive.height
  obtain ⟨n, hn⟩ : ∃ n : Nat, entry.height = n := ⟨_, (Int.toNat_of_nonneg (hactive.heights _ _ hentry)).symm⟩
  have hstart : ∀ fuel, bc.findForkHeight fuel hash =
      loop.run bc.forkRound fuel ⟨if entry.height > bc.chain.height then bc.chain.height else entry.height, hash, entry⟩ := by
    intro fuel
    rw [findForkHeight, hentry]
  by_cases hlow : n < blocks.length
  · obtain ⟨h, hrun, hfork⟩ := hactive.loop_finds htree hentry hn (by omega)
    refine iff_of_true ⟨n + 1, h, ?_, hfork⟩ (by omega)
    rw [hstart, if_neg (by omega), hn]
    exact hrun
  · -- The height is clamped to that of the tip, which is another block.
    obtain ⟨prev, hprev, hbelow⟩ := htree.parent hash entry hentry (by omega)
    have htip : bc.chain.byHeight[blocks.length - 1]? ≠ some hash := by
      intro hat
      have hown := hactive.height_of_byHeight hat hentry
      omega
    have hround : bc.forkRound ⟨bc.chain.height, hash, entry⟩ = .inr ⟨prev.height, entry.prevHash, prev⟩ := by
      rw [show bc.chain.height = (blocks.length - 1 : Nat) by omega]
      exact forkRound_next (by omega) htip hprev
    by_cases hnext : n = blocks.length
    · obtain ⟨h, hrun, hfork⟩ := hactive.loop_finds htree hprev (show prev.height = (blocks.length - 1 : Nat) by omega) (by omega)
      refine iff_of_true ⟨blocks.length - 1 + 1 + 1, h, ?_, ?_⟩ (by omega)
      · rw [hstart, if_pos (by omega), loop.run_of_goesOn hround, show prev.height = (blocks.length - 1 : Nat) by omega]
        exact hrun
      · refine hfork.of_parent hentry (by omega) (hactive.notMem_byHeight hentry hn ?_)
        simp [hlength, hnext]
    · refine iff_of_false ?_ (by omega)
      rintro ⟨fuel, h, hrun, -⟩
      have hbeyond : bc.findForkHeight 2 hash = some (.outOfBounds (n - 1)) := by
        rw [hstart, if_pos (by omega), loop.run_of_goesOn hround, show prev.height = (n - 1 : Nat) by omega]
        exact loop.run_of_ends (forkRound_outOfBounds (by omega) _ _) 0
      rw [hstart] at hrun hbeyond
      cases loop.run_unique hrun hbeyond

/-- A block that is connected to the first `k` blocks of the active chain keeps the index a tree. -/
theorem CBlockchain.IndexTree.connect {bc' : CBlockchain} (htree : IndexTree bc) (hactive : Active params bc blocks) {k : Nat} (hk : 0 < k)
    {blk parent : CBlock} (hparent : blocks[k - 1]? = some parent) (hprev : blk.header.prevBlockHash = parent.getHash)
    (hunknown : bc.haveBlock blk.getHash = false) {work : UInt256}
    (hbyHeight : bc'.chain.byHeight = (blocks.take k).map CBlock.getHash ++ [blk.getHash])
    (hindex : bc'.chain.index = bc.chain.index.insert blk.getHash (blk.indexEntry k work false)) : IndexTree bc' := by
  have hlookup : ∀ hash, bc'.getIndex hash =
      if hash = blk.getHash then some (blk.indexEntry k work false) else bc.getIndex hash := by
    intro hash
    rw [getIndex, hindex]
    exact orderedMap.lookup_insert ..
  have hkept : ∀ hash entry, bc.getIndex hash = some entry → bc'.getIndex hash = some entry := by
    intro hash entry hentry
    rw [hlookup, if_neg, hentry]
    rintro rfl
    rw [haveBlock, Std.ExtTreeMap.contains_eq_isSome_getElem?] at hunknown
    rw [getIndex] at hentry
    rw [hentry] at hunknown
    cases hunknown
  have hfirst : bc'.chain.byHeight[0]? = bc.chain.byHeight[0]? := by
    have hlt := (List.getElem?_eq_some_iff.mp hparent).1
    rw [hbyHeight, hactive.byHeight, List.getElem?_append_left (by rw [List.length_map, List.length_take]; omega),
      List.getElem?_map, List.getElem?_take_of_lt hk, List.getElem?_map]
  constructor
  · intro hash entry hentry hheight
    rw [hlookup] at hentry
    split at hentry
    · cases hentry
      simp only [CBlock.indexEntry] at hheight
      omega
    · rw [hfirst]
      exact htree.root hash entry hentry hheight
  · intro hash entry hentry hheight
    rw [hlookup] at hentry
    split at hentry
    · cases hentry
      have hentryPrev : (blk.indexEntry k work false).prevHash = parent.getHash := hprev
      rw [hentryPrev]
      refine ⟨_, hkept _ _ (hactive.indexed _ _ hparent), ?_⟩
      simp only [CBlock.indexEntry]
      omega
    · obtain ⟨prev, hprevEntry, hbelow⟩ := htree.parent hash entry hentry hheight
      exact ⟨prev, hkept _ _ hprevEntry, hbelow⟩

theorem CBlockchain.IndexTree.step {blk : CBlock} {bc' : CBlockchain} {blocks' : List CBlock} (htree : IndexTree bc)
    (hactive : Active params bc blocks) (hstep : ChainStep params blk bc blocks bc' blocks') : IndexTree bc' := by
  have hpos := List.length_pos_of_ne_nil hactive.ne_nil
  cases hstep with
  | kept htouched =>
    have hchain := htouched.chain_eq
    constructor
    · intro hash entry hentry
      rw [hchain]
      rw [getIndex, hchain] at hentry
      exact htree.root hash entry hentry
    · intro hash entry hentry
      rw [getIndex, hchain] at hentry ⊢
      exact htree.parent hash entry hentry
  | @extended last view fees hunknown hlast hheader hbits hcheck hresult =>
    have hparent : blocks[blocks.length - 1]? = some last := by rw [← List.getLast?_eq_getElem?, hlast]
    have hchain := congrArg CBlockchain.chain hresult
    rw [applyBlock_chain] at hchain
    refine htree.connect hactive hpos hparent (checkBlockHeader_some_eq_ok_iff.mp hheader).2.1 hunknown ?_
      (congrArg CChain.index hchain)
    rw [hchain, List.take_length, ← hactive.byHeight]
    rfl
  | @reorganised forkHeight parent view hunknown hparent hfork hgenesis hheader hreplay hwork hresult =>
    have hprev := (checkBlockHeader_some_eq_ok_iff.mp hheader).2.1
    have hchain := hactive.replaceChain_chain hparent hprev view
    rw [← hresult] at hchain
    exact htree.connect hactive (Nat.succ_pos forkHeight) hparent hprev hunknown (congrArg CChain.byHeight hchain)
      (congrArg CChain.index hchain)

omit [Memory] in
theorem genesisState_indexTree (g : CBlock) (view : CCoinsView) : IndexTree (genesisState {} g view) := by
  have hlookup : ∀ hash entry, (genesisState {} g view).getIndex hash = some entry → hash = g.getHash ∧ entry.height = 0 := by
    intro hash entry hentry
    replace hentry := (orderedMap.lookup_insert ..).symm.trans hentry
    split at hentry
    next hsame =>
      cases hentry
      exact ⟨hsame, rfl⟩
    · simp at hentry
  constructor
  · intro hash entry hentry _
    rw [(hlookup hash entry hentry).1]
    rfl
  · intro hash entry hentry hheight
    exact absurd (hlookup hash entry hentry).2 hheight.ne'

theorem Reachable.indexTree (hreachable : Reachable params bc) : ∃ blocks, Active params bc blocks ∧ IndexTree bc := by
  obtain ⟨start, events, hfresh, hrun⟩ := hreachable
  obtain ⟨g, view, fees, -, -, hstart, hactive⟩ := fresh_active hfresh
  refine transition.run_invariant (I := fun bc => ∃ blocks, Active params bc blocks ∧ IndexTree bc) ?_ ⟨[g], hactive, ?_⟩ hrun
  · rintro bc blk bc' - ⟨blocks, hbc, htree⟩ hdeliver
    obtain ⟨blocks', hstep, hactive'⟩ := hbc.deliver hdeliver
    exact ⟨blocks', hactive', htree.step hbc hstep⟩
  · rw [hstart]
    exact genesisState_indexTree g view

/-- On every reachable state the search is right, ends and stays inside `byHeight` exactly for blocks that
    are at most one height above the active chain. -/
theorem reachable_findsFork_iff (hreachable : Reachable params bc) {hash : UInt256} {entry : CBlockIndex}
    (hentry : bc.getIndex hash = some entry) : bc.FindsFork hash ↔ entry.height ≤ bc.chain.height + 1 := by
  obtain ⟨blocks, hactive, htree⟩ := hreachable.indexTree
  exact hactive.findsFork_iff htree hentry

end Reached

section

attribute [local instance] toolCrypto zeroMemory

/-- The first block, after the chain has moved to the heavy one. -/
theorem reachable_findsFork_stale : ∃ bc entry, Reachable regtestParams bc ∧ bc.getIndex firstBlock.getHash = some entry ∧
    entry.height ≤ bc.chain.height + 1 ∧ bc.FindsFork firstBlock.getHash := by
  have hevaluated : (regtestAfter [firstBlock, heavyBlock]).map (fun bc =>
      ((bc.getIndex firstBlock.getHash).map CBlockIndex.height, bc.chain.height)) = some (some 1, 1) := by
    rw [← tableCrypto_eq digests_right]
    decide +kernel
  obtain ⟨bc, hbc, heq⟩ := Option.map_eq_some_iff.mp hevaluated
  simp only [Prod.mk.injEq] at heq
  obtain ⟨entry, hentry, hheight⟩ := Option.map_eq_some_iff.mp heq.1
  have hlow : entry.height ≤ bc.chain.height + 1 := by omega
  exact ⟨bc, entry, reachable_of_regtestAfter hbc, hentry, hlow,
    (reachable_findsFork_iff (reachable_of_regtestAfter hbc) hentry).mpr hlow⟩

/-- A block on the child of the rival. -/
def rivalGrandchild : CBlock :=
  regtestBlock rivalChild.getHash [regtestCoinbase 3] (CDX_GENESIS_TIMESTAMP + 4) 0x207fffff 0

/-- Digests of the grandchild, with those of the blocks below it. -/
def grandchildDigests : List (Bytes × Bytes) := digests ++ [
  ([0x01, 0x00, 0x00, 0x00, 0x66, 0x1c, 0x61, 0xe8, 0x30, 0x1a, 0xac, 0xa9, 0x09, 0xfa, 0x1e, 0x60, 0xc4, 0x25, 0xc5,
    0x48, 0x3d, 0x24, 0x4e, 0xb2, 0xec, 0xf9, 0x65, 0xa5, 0x6b, 0x6a, 0x21, 0x6c, 0x45, 0x93, 0x57, 0x49, 0xe2, 0xcb,
    0x69, 0x28, 0xd2, 0x56, 0x23, 0xb8, 0x14, 0x4c, 0x22, 0xfc, 0xc0, 0xce, 0xb5, 0xeb, 0xb4, 0xd2, 0x9d, 0x46, 0xb0,
    0x6c, 0x69, 0x4a, 0x1c, 0x27, 0x34, 0x50, 0x28, 0x9e, 0x10, 0x69, 0x84, 0x64, 0x5a, 0x66, 0xff, 0xff, 0x7f, 0x20,
    0x00, 0x00, 0x00, 0x00],
   [0xee, 0x2a, 0xa5, 0xfa, 0x1c, 0x13, 0xde, 0x5e, 0x4d, 0x54, 0xc9, 0x4b, 0x89, 0x34, 0xcf, 0xd0, 0x8a, 0x38, 0x07,
     0xcf, 0xe2, 0xb9, 0x30, 0x1f, 0x25, 0x4f, 0x7c, 0xe6, 0xe0, 0x08, 0xf0, 0x66]),
  ([0xee, 0x2a, 0xa5, 0xfa, 0x1c, 0x13, 0xde, 0x5e, 0x4d, 0x54, 0xc9, 0x4b, 0x89, 0x34, 0xcf, 0xd0, 0x8a, 0x38, 0x07,
    0xcf, 0xe2, 0xb9, 0x30, 0x1f, 0x25, 0x4f, 0x7c, 0xe6, 0xe0, 0x08, 0xf0, 0x66],
   [0x5d, 0x45, 0x31, 0x6e, 0x0a, 0x86, 0xde, 0x8e, 0x77, 0xed, 0x74, 0x87, 0xb4, 0x7e, 0xd5, 0xf6, 0x2c, 0xd0, 0x18,
     0x36, 0xaa, 0xac, 0x10, 0x1d, 0x38, 0x35, 0x38, 0xfe, 0xbc, 0xbb, 0x71, 0x2c]),
  ([0x01, 0x00, 0x00, 0x00, 0x01, 0x00, 0x00, 0x00, 0x00, 0x00, 0x00, 0x00, 0x00, 0x00, 0x00, 0x00, 0x00, 0x00, 0x00,
    0x00, 0x00, 0x00, 0x00, 0x00, 0x00, 0x00, 0x00, 0x00, 0x00, 0x00, 0x00, 0x00, 0x00, 0x00, 0x00, 0x00, 0x00, 0xff,
    0xff, 0xff, 0xff, 0x05, 0x04, 0x03, 0x00, 0x00, 0x00, 0xff, 0xff, 0xff, 0xff, 0x01, 0x00, 0xf2, 0x05, 0x2a, 0x01,
    0x00, 0x00, 0x00, 0x01, 0x51, 0x00, 0x00, 0x00, 0x00],
   [0x26, 0xad, 0xf0, 0xf2, 0x81, 0xc7, 0x0f, 0x22, 0x05, 0xaf, 0xbc, 0xb2, 0xc2, 0x7c, 0x3e, 0xdb, 0x78, 0x83, 0x35,
     0xf0, 0x3a, 0xb6, 0x46, 0xcd, 0x7a, 0x16, 0x43, 0xb5, 0xbb, 0xc8, 0x42, 0xaa]),
  ([0x26, 0xad, 0xf0, 0xf2, 0x81, 0xc7, 0x0f, 0x22, 0x05, 0xaf, 0xbc, 0xb2, 0xc2, 0x7c, 0x3e, 0xdb, 0x78, 0x83, 0x35,
    0xf0, 0x3a, 0xb6, 0x46, 0xcd, 0x7a, 0x16, 0x43, 0xb5, 0xbb, 0xc8, 0x42, 0xaa],
   [0xe2, 0xcb, 0x69, 0x28, 0xd2, 0x56, 0x23, 0xb8, 0x14, 0x4c, 0x22, 0xfc, 0xc0, 0xce, 0xb5, 0xeb, 0xb4, 0xd2, 0x9d,
     0x46, 0xb0, 0x6c, 0x69, 0x4a, 0x1c, 0x27, 0x34, 0x50, 0x28, 0x9e, 0x10, 0x69])]

theorem grandchildDigests_right : ∀ entry ∈ grandchildDigests, sha256Full entry.1 = entry.2 := by
  rw [grandchildDigests, List.forall_mem_append]
  exact ⟨digests_right, by decide +kernel⟩

/-- A branch of three blocks gives way to one heavy block; the search from its end reads behind the two
    hashes of the active chain. -/
theorem findsFork_fails_longBranch : ∃ bc, Reachable regtestParams bc ∧ bc.haveBlock rivalGrandchild.getHash = true ∧
    bc.chain.byHeight.length = 2 ∧ bc.findForkHeight 2 rivalGrandchild.getHash = some (.outOfBounds 2) ∧
    ¬bc.FindsFork rivalGrandchild.getHash := by
  have hevaluated : (regtestAfter [rivalBlock, rivalChild, rivalGrandchild, heavyBlock]).map (fun bc =>
      (bc.haveBlock rivalGrandchild.getHash, bc.chain.byHeight.length, bc.findForkHeight 2 rivalGrandchild.getHash)) =
      some (true, 2, some (.outOfBounds 2)) := by
    rw [← tableCrypto_eq grandchildDigests_right]
    decide +kernel
  obtain ⟨bc, hbc, heq⟩ := Option.map_eq_some_iff.mp hevaluated
  simp only [Prod.mk.injEq] at heq
  obtain ⟨hhave, hlength, hsearch⟩ := heq
  refine ⟨bc, reachable_of_regtestAfter hbc, hhave, hlength, hsearch, ?_⟩
  rintro ⟨fuel, h, hrun, -⟩
  rw [CBlockchain.findForkHeight] at hrun hsearch
  cases hentry : bc.getIndex rivalGrandchild.getHash with
  | none =>
    rw [hentry] at hsearch
    cases hsearch
  | some entry =>
    rw [hentry] at hrun hsearch
    cases loop.run_unique hrun hsearch

end

end cdx
