import Cdx.Blockchain.Connect

namespace cdx

/-- `IsBlockTimeValid` at a clock. Nothing in the source calls it. -/
def isBlockTimeValid (timestamp now : Int) : Bool := if timestamp > now + 2 * 3600 then false else true

theorem isBlockTimeValid_iff {timestamp now : Int} : isBlockTimeValid timestamp now = true ↔ timestamp ≤ now + 7200 := by
  unfold isBlockTimeValid
  split
  · exact iff_of_false Bool.false_ne_true (by omega)
  · exact iff_of_true rfl (by omega)

/-- A node with its clock, and the headers that it has accepted, each with the clock at that time. -/
structure TimedChain where
  chain : CBlockchain
  clock : Int
  accepted : List (CBlockHeader × Int) := []

section Clock

variable [Crypto] [Memory]

/-- A delivery at a clock, which does not go back. A block that the node has already is
    not accepted again. -/
def TimedChain.step (params : ChainParams) (s : TimedChain) (event : CBlock × Int) : Option TimedChain :=
  if event.2 < s.clock then none
  else
    match CBlockchain.tryAcceptBlock params event.1 s.chain with
    | .error _ => none
    | .ok (r, bc) => some {
        chain := bc
        clock := event.2
        accepted :=
          if r.ok = true ∧ s.chain.haveBlock event.1.getHash = false then s.accepted ++ [(event.1.header, event.2)]
          else s.accepted }

theorem TimedChain.step_eq_some {params : ChainParams} {s s' : TimedChain} {event : CBlock × Int}
    (hstep : TimedChain.step params s event = some s') :
    s.clock ≤ event.2 ∧ ∃ r, CBlockchain.tryAcceptBlock params event.1 s.chain = .ok (r, s'.chain) ∧
      s'.clock = event.2 ∧ s'.accepted =
        if r.ok = true ∧ s.chain.haveBlock event.1.getHash = false then s.accepted ++ [(event.1.header, event.2)]
        else s.accepted := by
  unfold TimedChain.step at hstep
  split at hstep
  · cases hstep
  next hclock =>
    split at hstep
    · cases hstep
    next r bc haccept =>
      cases hstep
      exact ⟨not_lt.mp hclock, r, haccept, rfl, rfl⟩

/-- `TryAcceptBlock` accepts a new block exactly when the block joins the chain. -/
theorem Active.accepts_iff {params : ChainParams} {bc bc' : CBlockchain} {blocks : List CBlock} {blk : CBlock}
    {r : ReorgResult} (hactive : Active params bc blocks)
    (haccept : CBlockchain.tryAcceptBlock params blk bc = .ok (r, bc')) :
    (r.ok = true ∧ bc.haveBlock blk.getHash = false) ↔ ∃ base, Joins params bc blk base := by
  have hdeliver : CBlockchain.deliver params bc blk = some bc' := by rw [CBlockchain.deliver, haccept]
  have hnotTip : bc.haveBlock blk.getHash = false → bc.chain.tipHash ≠ blk.getHash := by
    intro hunknown
    obtain ⟨last, hlast, htip⟩ := hactive.tip
    rw [htip]
    exact hactive.hash_ne hunknown (List.mem_of_getLast? hlast)
  constructor
  · rintro ⟨hok, hunknown⟩
    rcases hactive.deliver_joins hdeliver with htouched | hjoins
    · -- The two branches that accept leave the new block as the tip.
      have hchain := htouched.chain_eq
      cases CBlockchain.delivered_of_tryAcceptBlock haccept with
      | known hknown =>
        rw [hknown] at hunknown
        cases hunknown
      | rejected message _ _ => cases hok
      | extended _ _ _ _ _ _ _ hresult =>
        rw [hresult, CBlockchain.applyBlock_chain] at hchain
        exact absurd (congrArg CChain.tipHash hchain).symm (hnotTip hunknown)
      | reorganised _ _ _ _ _ _ hresult =>
        rw [hresult] at hchain
        exact absurd (congrArg CChain.tipHash hchain).symm (hnotTip hunknown)
    · exact hjoins
  · rintro ⟨base, hjoins⟩
    have hunknown : bc.haveBlock blk.getHash = false := by
      rcases hjoins with hextends | ⟨_, _, hfork, -⟩
      · exact hextends.unknown
      · exact hfork.unknown
    refine ⟨?_, hunknown⟩
    cases CBlockchain.delivered_of_tryAcceptBlock haccept with
    | known _ => rfl
    | rejected message _ htouched =>
      obtain ⟨-, -, hjoined⟩ := hactive.joined hjoins hdeliver
      have hsame := Option.some.inj ((hactive.touched htouched).readChain.symm.trans hjoined.readChain)
      exact absurd rfl (hactive.hash_ne hunknown (by rw [hsame]; exact List.mem_concat_self))
    | extended _ _ _ _ _ _ _ _ => rfl
    | reorganised _ _ _ _ _ _ _ => rfl

omit [Memory] in
theorem minedGenesis_timestamp {params : ChainParams} {g : CBlock} (hmined : CBlockchain.minedGenesis params = some g) :
    g.header.timestamp = CDX_GENESIS_TIMESTAMP := by
  unfold CBlockchain.minedGenesis at hmined
  simp only at hmined
  split at hmined
  · cases hmined
    rfl
  · split at hmined
    · cases hmined
    next header hfound =>
      cases hmined
      obtain ⟨⟨nonce, hheader⟩, -⟩ := mineGenesis_spec hfound
      rw [hheader]
      rfl

/-- The blocks of the active chain above genesis are among the accepted ones, with clocks
    up to the present one. -/
structure TimedChain.Recorded (params : ChainParams) (s : TimedChain) (blocks : List CBlock) : Prop where
  active : Active params s.chain blocks
  genesis : ∀ g : CBlock, blocks[0]? = some g → g.header.timestamp = CDX_GENESIS_TIMESTAMP
  accepted : ∀ (i : Nat) (blk : CBlock), 0 < i → blocks[i]? = some blk →
    ∃ now, now ≤ s.clock ∧ (blk.header, now) ∈ s.accepted

theorem TimedChain.Recorded.step {params : ChainParams} {s s' : TimedChain} {blocks : List CBlock}
    (hrecorded : s.Recorded params blocks) {event : CBlock × Int}
    (hstep : TimedChain.step params s event = some s') : ∃ blocks', s'.Recorded params blocks' := by
  obtain ⟨hclock, r, haccept, hclock', haccepted⟩ := TimedChain.step_eq_some hstep
  have hdeliver : CBlockchain.deliver params s.chain event.1 = some s'.chain := by rw [CBlockchain.deliver, haccept]
  have haccepts := hrecorded.active.accepts_iff haccept
  by_cases hjoins : ∃ base, Joins params s.chain event.1 base
  · rw [if_pos (haccepts.mpr hjoins)] at haccepted
    obtain ⟨base, hjoins⟩ := hjoins
    obtain ⟨hbase, hne, hactive⟩ := hrecorded.active.joined hjoins hdeliver
    have hpos := List.length_pos_of_ne_nil hne
    have hbelow : ∀ {i : Nat} {blk : CBlock}, base[i]? = some blk → blocks[i]? = some blk := by
      intro i blk hblk
      obtain ⟨above, rfl⟩ := hbase
      rw [List.getElem?_append_left (List.getElem?_eq_some_iff.mp hblk).1]
      exact hblk
    refine ⟨base ++ [event.1], hactive, ?_, ?_⟩
    · intro g hg
      rw [List.getElem?_append_left hpos] at hg
      exact hrecorded.genesis g (hbelow hg)
    · intro i blk hi hblk
      rw [hclock', haccepted]
      by_cases hnew : i < base.length
      · rw [List.getElem?_append_left hnew] at hblk
        obtain ⟨now, hnow, hmem⟩ := hrecorded.accepted i blk hi (hbelow hblk)
        exact ⟨now, hnow.trans hclock, List.mem_append_left _ hmem⟩
      · have hlast := List.mem_of_getElem? (List.getElem?_append_right (not_lt.mp hnew) ▸ hblk)
        cases List.mem_singleton.mp hlast
        exact ⟨event.2, le_refl _, List.mem_concat_self⟩
  · rw [if_neg (fun h => hjoins (haccepts.mp h))] at haccepted
    have htouched := (hrecorded.active.deliver_joins hdeliver).resolve_right hjoins
    refine ⟨blocks, hrecorded.active.touched htouched, hrecorded.genesis, ?_⟩
    intro i blk hi hblk
    obtain ⟨now, hnow, hmem⟩ := hrecorded.accepted i blk hi hblk
    rw [hclock', haccepted]
    exact ⟨now, hnow.trans hclock, hmem⟩

/-- Every accepted header was valid at its clock, and while the clock is far enough from
    the end of 32 bits there is a timestamp for the block after the tip. -/
structure TimedChain.InTime (s : TimedChain) : Prop where
  valid : ∀ entry ∈ s.accepted, isBlockTimeValid entry.1.timestamp.toNat entry.2 = true
  extendable : ∀ now, s.clock ≤ now → now < 2 ^ 32 - 7201 → ∀ (blocks : List CBlock) (tip : CBlock),
    s.chain.readChain = some blocks → blocks.getLast? = some tip → ∃ ts : UInt32, tip.header.timestamp < ts

omit [Crypto] [Memory] in
theorem exists_later_timestamp {timestamp : UInt32} (hlt : timestamp.toNat + 1 < 2 ^ 32) : ∃ ts : UInt32, timestamp < ts := by
  refine ⟨UInt32.ofNat (timestamp.toNat + 1), ?_⟩
  rw [UInt32.lt_iff_toNat_lt, UInt32.toNat_ofNat_of_lt' hlt]
  omega

/-- The second part follows from the first. -/
theorem TimedChain.Recorded.inTime_iff {params : ChainParams} {s : TimedChain} {blocks : List CBlock}
    (hrecorded : s.Recorded params blocks) :
    s.InTime ↔ ∀ entry ∈ s.accepted, isBlockTimeValid entry.1.timestamp.toNat entry.2 = true := by
  refine ⟨TimedChain.InTime.valid, fun hvalid => ⟨hvalid, ?_⟩⟩
  intro now hclock hnow blocks' tip hread htip
  obtain rfl : blocks = blocks' := Option.some.inj (hrecorded.active.readChain.symm.trans hread)
  apply exists_later_timestamp
  rw [List.getLast?_eq_getElem?] at htip
  by_cases hgenesis : blocks.length - 1 = 0
  · rw [hgenesis] at htip
    rw [hrecorded.genesis tip htip]
    decide
  · obtain ⟨accepted, hle, hmem⟩ := hrecorded.accepted _ tip (by omega) htip
    have htime := isBlockTimeValid_iff.mp (hvalid _ hmem)
    simp only at htime
    omega

/-- Along a run everything stays in time exactly when every block that joins the chain is
    valid at the clock of its delivery. -/
theorem run_inTime_iff {params : ChainParams} {bc : CBlockchain} (hfresh : CBlockchain.fresh params = some bc)
    {clock : Int} {events : List (CBlock × Int)} {final : TimedChain}
    (hrun : transition.run (TimedChain.step params) { chain := bc, clock := clock } events = some final) :
    (∀ s, transition.Visits (TimedChain.step params) { chain := bc, clock := clock } events s → s.InTime) ↔
      ∀ s event, transition.Takes (TimedChain.step params) { chain := bc, clock := clock } events s event →
        (∃ base, Joins params s.chain event.1 base) →
          isBlockTimeValid event.1.header.timestamp.toNat event.2 = true := by
  obtain ⟨g, view, fees, hmined, -, -, hactive⟩ := fresh_active hfresh
  have hstart : TimedChain.Recorded params { chain := bc, clock := clock } [g] := by
    refine ⟨hactive, ?_, ?_⟩
    · intro g' hg'
      cases hg'
      exact minedGenesis_timestamp hmined
    · intro i blk hi hblk
      rw [List.getElem?_eq_none (show [g].length ≤ i from hi)] at hblk
      cases hblk
  apply transition.visits_iff_takes (I := fun s => ∃ blocks, s.Recorded params blocks) _ _ ⟨[g], hstart⟩ _ hrun
  · rintro s event s' - ⟨blocks, hrecorded⟩ - hstep
    exact hrecorded.step hstep
  · rintro s event s' - ⟨blocks, hrecorded⟩ hinTime hstep
    obtain ⟨blocks', hrecorded'⟩ := hrecorded.step hstep
    obtain ⟨-, r, haccept, -, haccepted⟩ := TimedChain.step_eq_some hstep
    have haccepts := hrecorded.active.accepts_iff haccept
    rw [hrecorded'.inTime_iff, haccepted]
    by_cases hjoins : ∃ base, Joins params s.chain event.1 base
    · rw [if_pos (haccepts.mpr hjoins), List.forall_mem_append, List.forall_mem_singleton]
      exact ⟨fun hvalid _ => hvalid.2, fun hguard => ⟨hinTime.valid, hguard hjoins⟩⟩
    · rw [if_neg (fun h => hjoins (haccepts.mp h))]
      exact ⟨fun _ h => absurd h hjoins, fun _ => hinTime.valid⟩
  · rw [hstart.inTime_iff]
    intro entry hentry
    cases hentry

end Clock

section

attribute [local instance] toolCrypto zeroMemory

/-- A block on genesis with the last timestamp of all. -/
def lateBlock : CBlock :=
  regtestBlock (getGenesisBlock regtestParams).getHash [regtestCoinbase 1] 0xffffffff 0x207fffff 3

def lateDigests : List (Bytes × Bytes) := digests ++ [
  ([0x01, 0x00, 0x00, 0x00, 0xcd, 0xcd, 0x8b, 0x3c, 0xde, 0x1b, 0x06, 0xd9, 0xa0, 0x73, 0x3f, 0x6c, 0x52, 0xa7, 0x82,
    0xd0, 0xbf, 0xd8, 0x99, 0xc6, 0x1c, 0x53, 0xc4, 0x19, 0x5a, 0x15, 0xc9, 0x1d, 0xf1, 0x9d, 0xd1, 0x6c, 0x2b, 0x0d,
    0x68, 0xda, 0x38, 0x4d, 0x2a, 0xc1, 0x01, 0x67, 0xe1, 0x28, 0xc8, 0x8e, 0xcf, 0x65, 0x6c, 0xae, 0x61, 0xb0, 0x9a,
    0xba, 0x62, 0xfc, 0x75, 0xc9, 0x54, 0xb2, 0x2d, 0x30, 0x5c, 0xd0, 0xff, 0xff, 0xff, 0xff, 0xff, 0xff, 0x7f, 0x20,
    0x03, 0x00, 0x00, 0x00],
   [0x0c, 0xd0, 0x88, 0x39, 0x9c, 0x8c, 0x0c, 0xbf, 0x78, 0xbe, 0x5b, 0xb2, 0x59, 0x8f, 0xe9, 0x4a, 0x04, 0x76, 0x51,
     0xfb, 0x6b, 0x69, 0x88, 0x7a, 0xbd, 0xbf, 0x30, 0xca, 0xa9, 0x3d, 0x54, 0x4b]),
  ([0x0c, 0xd0, 0x88, 0x39, 0x9c, 0x8c, 0x0c, 0xbf, 0x78, 0xbe, 0x5b, 0xb2, 0x59, 0x8f, 0xe9, 0x4a, 0x04, 0x76, 0x51,
    0xfb, 0x6b, 0x69, 0x88, 0x7a, 0xbd, 0xbf, 0x30, 0xca, 0xa9, 0x3d, 0x54, 0x4b],
   [0xe9, 0x58, 0x54, 0xdd, 0x0f, 0xe0, 0xa9, 0x28, 0xbc, 0xaf, 0xf5, 0x60, 0x54, 0xd6, 0x49, 0xa1, 0xfe, 0x2d, 0x9b,
     0xce, 0x71, 0xc7, 0x2b, 0x65, 0x41, 0xf1, 0x11, 0xd8, 0x72, 0xb7, 0xfe, 0x64])]

theorem lateDigests_right : ∀ entry ∈ lateDigests, sha256Full entry.1 = entry.2 := by
  rw [lateDigests, List.forall_mem_append]
  exact ⟨digests_right, by decide +kernel⟩

theorem run_inTime_first : ∃ bc final, CBlockchain.fresh regtestParams = some bc ∧
    transition.run (TimedChain.step regtestParams) { chain := bc, clock := CDX_GENESIS_TIMESTAMP.toNat }
      [(firstBlock, CDX_GENESIS_TIMESTAMP.toNat)] = some final ∧
    ∀ s, transition.Visits (TimedChain.step regtestParams) { chain := bc, clock := CDX_GENESIS_TIMESTAMP.toNat }
      [(firstBlock, CDX_GENESIS_TIMESTAMP.toNat)] s → s.InTime := by
  have hevaluated : ((CBlockchain.fresh regtestParams).bind fun bc => TimedChain.step regtestParams
      { chain := bc, clock := CDX_GENESIS_TIMESTAMP.toNat } (firstBlock, CDX_GENESIS_TIMESTAMP.toNat)).isSome = true := by
    rw [← tableCrypto_eq digests_right]
    decide +kernel
  obtain ⟨final, hfinal⟩ := Option.isSome_iff_exists.mp hevaluated
  obtain ⟨bc, hfresh, hstep⟩ := Option.bind_eq_some_iff.mp hfinal
  have hrun := (transition.run_singleton _ _).trans hstep
  refine ⟨bc, final, hfresh, hrun, (run_inTime_iff hfresh hrun).mpr ?_⟩
  rintro s event (⟨-, rfl⟩ | ⟨next, -, htakes⟩) -
  · exact isBlockTimeValid_iff.mpr (show (1717200001 : Int) ≤ 1717200000 + 7200 by decide)
  · cases htakes

/-- Ten minutes after the genesis timestamp the node accepts a block of the year 2106, and
    no block can follow it any more. -/
theorem inTime_fails_lateBlock : ∃ bc final, CBlockchain.fresh regtestParams = some bc ∧
    transition.run (TimedChain.step regtestParams) { chain := bc, clock := 1717200600 } [(lateBlock, 1717200600)] =
      some final ∧ ¬ final.InTime ∧ final.chain.chain.tipHash = lateBlock.getHash ∧
    ∀ ts : UInt32, ¬ lateBlock.header.timestamp < ts := by
  have hevaluated : ((CBlockchain.fresh regtestParams).bind fun bc => (TimedChain.step regtestParams
      { chain := bc, clock := 1717200600 } (lateBlock, 1717200600)).map fun s => (s.chain.chain.tipHash, s.accepted)) =
      some (lateBlock.getHash, [(lateBlock.header, 1717200600)]) := by
    rw [← tableCrypto_eq lateDigests_right]
    decide +kernel
  obtain ⟨bc, hfresh, hstart⟩ := Option.bind_eq_some_iff.mp hevaluated
  obtain ⟨final, hstep, hfinal⟩ := Option.map_eq_some_iff.mp hstart
  simp only [Prod.mk.injEq] at hfinal
  refine ⟨bc, final, hfresh, (transition.run_singleton _ _).trans hstep, ?_, hfinal.1, ?_⟩
  · intro hinTime
    have hvalid := hinTime.valid (lateBlock.header, 1717200600) (by rw [hfinal.2]; exact List.mem_singleton_self _)
    exact absurd (isBlockTimeValid_iff.mp hvalid) (show ¬ (4294967295 : Int) ≤ 1717200600 + 7200 by decide)
  · intro ts
    rw [UInt32.not_lt, UInt32.le_iff_toNat_le]
    exact Nat.le_of_lt_succ ts.toNat_lt

end

end cdx
