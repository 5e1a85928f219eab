import Cdx.Blockchain.Invariants

namespace cdx

/-- What the difficulty section of `AcceptBlock` does that shows from outside: an
    element of `byHeight` that it reads, and the times that it hands to
    `GetNextWorkRequired`. -/
inductive DifficultyAccess where
  | byHeight (i : Nat)
  | workRequired (lastTime firstTime : Int)
deriving DecidableEq

section Window

variable [Crypto] [Memory]

namespace CBlockchain

/-- `intervalStartTime` with the accesses it makes. -/
def intervalStartTimeTraced (bc : CBlockchain) (params : ChainParams) (prev : CBlockHeader) (prevHeight : Int) :
    List DifficultyAccess × Int × CBlockchain :=
  let intervalStartHeight := (prevHeight + 1).tdiv params.difficultyInterval * params.difficultyInterval
  if intervalStartHeight > 0 then
    match bc.readAt intervalStartHeight.toNat with
    | (some firstBlk, bc) => ([.byHeight intervalStartHeight.toNat], firstBlk.header.timestamp.toNat, bc)
    | (none, bc) => ([.byHeight intervalStartHeight.toNat], prev.timestamp.toNat, bc)
  else ([], prev.timestamp.toNat, bc)

theorem intervalStartTimeTraced_snd (bc : CBlockchain) (params : ChainParams) (prev : CBlockHeader)
    (prevHeight : Int) :
    (bc.intervalStartTimeTraced params prev prevHeight).2 = bc.intervalStartTime params prev prevHeight := by
  unfold intervalStartTimeTraced intervalStartTime
  simp only
  split
  · obtain ⟨firstBlk, mid⟩ := bc.readAt ((prevHeight + 1).tdiv params.difficultyInterval * params.difficultyInterval).toNat
    cases firstBlk <;> rfl
  · rfl

/-- `AcceptBlock` with the accesses of its difficulty section. -/
def acceptBlockTraced (params : ChainParams) (blk : CBlock) (height : Int) (bc : CBlockchain) :
    List DifficultyAccess × Outcome (Except String Unit) :=
  match bc.getIndex blk.header.prevBlockHash with
  | none => ([], .ok (.error "unknown prev block", bc))
  | some prevIdx =>
    match bc.readBlock blk.header.prevBlockHash with
    | (none, bc) => ([], .ok (.error "cannot read prev block", bc))
    | (some prevBlk, bc) =>
      let prev := prevBlk.header
      match checkBlockHeader blk.header (some prev) params with
      | .error message => ([], .ok (.error message, bc))
      | .ok () =>
        let (accesses, firstTime, bc) := bc.intervalStartTimeTraced params prev prevIdx.height
        let accesses := accesses ++ [.workRequired prev.timestamp.toNat firstTime]
        let expectedBits := getNextWorkRequired prev.timestamp.toNat prevIdx.height prev.bits firstTime params
        if blk.header.bits ≠ expectedBits then (accesses, .ok (.error "incorrect difficulty bits", bc))
        else
          match checkBlock blk height bc.chain.view with
          | .error (.error message) => (accesses, .ok (.error message, bc))
          | .error (.overflow sum) => (accesses, .error sum)
          | .ok (newView, _) => (accesses, .ok (.ok (), bc.applyBlock blk height prevIdx newView))

/-- Without its accesses the traced call is `AcceptBlock`. -/
theorem acceptBlockTraced_snd (params : ChainParams) (blk : CBlock) (height : Int) (bc : CBlockchain) :
    (acceptBlockTraced params blk height bc).2 = acceptBlock params blk height bc := by
  unfold acceptBlockTraced acceptBlock
  cases bc.getIndex blk.header.prevBlockHash with
  | none => rfl
  | some prevIdx =>
    obtain ⟨prevBlk, mid⟩ := bc.readBlock blk.header.prevBlockHash
    cases prevBlk with
    | none => rfl
    | some prevBlk =>
      simp only
      cases checkBlockHeader blk.header (some prevBlk.header) params with
      | error message => rfl
      | ok _ =>
        simp only [← intervalStartTimeTraced_snd]
        obtain ⟨accesses, firstTime, last⟩ := mid.intervalStartTimeTraced params prevBlk.header prevIdx.height
        simp only
        split
        · rfl
        · cases checkBlock blk height last.chain.view with
          | error reject => cases reject <;> rfl
          | ok result => rfl

/-- The accesses of `AcceptBlock`, with its reads written as lookups. -/
theorem acceptBlockTraced_fst {params : ChainParams} {blk : CBlock} {bc : CBlockchain} {prevIdx : CBlockIndex}
    {prevBlk : CBlock} (hindex : bc.getIndex blk.header.prevBlockHash = some prevIdx)
    (hstored : bc.storage.stored blk.header.prevBlockHash = some prevBlk) (height : Int) :
    (acceptBlockTraced params blk height bc).1 =
      match checkBlockHeader blk.header (some prevBlk.header) params with
      | .error _ => []
      | .ok () =>
        (bc.touch.intervalStartTimeTraced params prevBlk.header prevIdx.height).1 ++
          [.workRequired prevBlk.header.timestamp.toNat
            (bc.touch.intervalStartTimeTraced params prevBlk.header prevIdx.height).2.1] := by
  have hread : bc.readBlock blk.header.prevBlockHash = (some prevBlk, bc.touch) := by
    rw [← hstored]
    rfl
  unfold acceptBlockTraced
  simp only [hindex, hread]
  cases checkBlockHeader blk.header (some prevBlk.header) params with
  | error message => rfl
  | ok _ =>
    simp only
    split
    · rfl
    · split <;> rfl

end CBlockchain

/-- The accesses stay within the chain of these blocks, and the elapsed time is that of
    the interval which the last of them completes. -/
structure WithinWindow (params : ChainParams) (blocks : List CBlock) (accesses : List DifficultyAccess) : Prop where
  inside : ∀ i, .byHeight i ∈ accesses → i < blocks.length
  elapsed : ∀ lastTime firstTime, .workRequired lastTime firstTime ∈ accesses →
    ∃ first last : CBlock, blocks[blocks.length - params.difficultyInterval.toNat]? = some first ∧
      blocks.getLast? = some last ∧
      lastTime - firstTime = last.header.timestamp.toNat - first.header.timestamp.toNat

/-- At the end of an interval the height that `AcceptBlock` computes is that of the new block. -/
theorem mem_intervalStartTimeTraced (bc : CBlockchain) (params : ChainParams) (prev : CBlockHeader) {prevHeight : Int}
    (hheight : 0 ≤ prevHeight) (hinterval : params.difficultyInterval ∣ prevHeight + 1) :
    .byHeight (prevHeight + 1).toNat ∈ (bc.intervalStartTimeTraced params prev prevHeight).1 := by
  have hstart : (prevHeight + 1).tdiv params.difficultyInterval * params.difficultyInterval = prevHeight + 1 :=
    Int.tdiv_mul_cancel hinterval
  unfold CBlockchain.intervalStartTimeTraced
  simp only [hstart]
  rw [if_pos (by omega)]
  split <;> exact List.mem_singleton_self _

/-- On a chain that completes an interval, `AcceptBlock` keeps to the window of that
    interval exactly when it does not come to the difficulty of the block at all. -/
theorem reachable_withinWindow_iff {params : ChainParams} {bc : CBlockchain} (hreachable : Reachable params bc)
    {blocks : List CBlock} (hchain : bc.readChain = some blocks) {tip : CBlock} (htip : blocks.getLast? = some tip)
    (hinterval : params.difficultyInterval ∣ bc.chain.height + 1) {blk : CBlock}
    (hextends : blk.header.prevBlockHash = bc.chain.tipHash) :
    WithinWindow params blocks (CBlockchain.acceptBlockTraced params blk (bc.chain.height + 1) bc).1 ↔
      checkBlockHeader blk.header (some tip.header) params ≠ .ok () := by
  obtain ⟨blocks', hactive⟩ := hreachable.active
  obtain rfl : blocks' = blocks := Option.some.inj (hactive.readChain.symm.trans hchain)
  obtain ⟨last, hlast, hhash⟩ := hactive.tip
  obtain rfl : last = tip := Option.some.inj (hlast.symm.trans htip)
  have hpos := List.length_pos_of_ne_nil hactive.ne_nil
  have hheight : ((blocks'.length - 1 : Nat) : Int) = bc.chain.height := by
    rw [hactive.height]
    omega
  have hindex : bc.getIndex blk.header.prevBlockHash =
      some (last.indexEntry (blocks'.length - 1 : Nat) (chainWorkOf blocks') (decide (blocks'.length - 1 = 0))) := by
    rw [hextends, hhash]
    exact hactive.last_indexed hlast
  have hstored : bc.storage.stored blk.header.prevBlockHash = some last := by
    rw [hextends, hhash]
    exact hactive.stored last (List.mem_of_getLast? hlast)
  rw [CBlockchain.acceptBlockTraced_fst hindex hstored]
  cases hheader : checkBlockHeader blk.header (some last.header) params with
  | error message => exact ⟨fun _ => by simp, fun _ => ⟨by simp, by simp⟩⟩
  | ok _ =>
    refine ⟨?_, fun hfailed => absurd rfl hfailed⟩
    intro hwindow
    -- The element read is the one of the new block, which the list does not have yet.
    have hmem := mem_intervalStartTimeTraced bc.touch params last.header (show (0 : Int) ≤ (blocks'.length - 1 : Nat) by omega)
      (by rw [hheight]; exact hinterval)
    have hinside := hwindow.inside _ (List.mem_append_left _ hmem)
    omega

end Window

section

attribute [local instance] toolCrypto zeroMemory

/-- The regression network with a difficulty interval of two blocks. -/
def shortIntervalParams : ChainParams :=
  { regtestParams with difficultyInterval := 2, difficultyInterval_pos := two_pos }

/-- A node with this network's genesis and one block, so with a complete interval. -/
theorem shortInterval_complete : ∃ bc, Reachable shortIntervalParams bc ∧ bc.chain.height = 1 ∧
    bc.chain.tipHash = rivalBlock.getHash ∧
    .byHeight 2 ∈ (CBlockchain.acceptBlockTraced shortIntervalParams rivalChild 2 bc).1 := by
  have hevaluated : ((CBlockchain.fresh shortIntervalParams).bind fun start =>
      (transition.run (CBlockchain.deliver shortIntervalParams) start [rivalBlock]).map fun bc =>
        (bc.chain.height, bc.chain.tipHash, (CBlockchain.acceptBlockTraced shortIntervalParams rivalChild 2 bc).1)) =
      some (1, rivalBlock.getHash, [.byHeight 2,
        .workRequired (CDX_GENESIS_TIMESTAMP + 2).toNat (CDX_GENESIS_TIMESTAMP + 2).toNat]) := by
    rw [← tableCrypto_eq digests_right]
    decide +kernel
  obtain ⟨start, hfresh, hstart⟩ := Option.bind_eq_some_iff.mp hevaluated
  obtain ⟨bc, hrun, hbc⟩ := Option.map_eq_some_iff.mp hstart
  simp only [Prod.mk.injEq] at hbc
  obtain ⟨hheight, htip, haccesses⟩ := hbc
  refine ⟨bc, ⟨start, [rivalBlock], hfresh, hrun⟩, hheight, htip, ?_⟩
  rw [haccesses]
  exact List.mem_cons_self

/-- The child with a timestamp before its parent's. -/
def earlyChild : CBlock := { rivalChild with header := { rivalChild.header with timestamp := 0 } }

theorem reachable_withinWindow_earlyChild : ∃ bc blocks, Reachable shortIntervalParams bc ∧
    bc.readChain = some blocks ∧ shortIntervalParams.difficultyInterval ∣ bc.chain.height + 1 ∧
    earlyChild.header.prevBlockHash = bc.chain.tipHash ∧
    WithinWindow shortIntervalParams blocks
      (CBlockchain.acceptBlockTraced shortIntervalParams earlyChild (bc.chain.height + 1) bc).1 := by
  obtain ⟨bc, hreachable, hheight, htip, -⟩ := shortInterval_complete
  obtain ⟨blocks, hactive⟩ := hreachable.active
  obtain ⟨last, hlast, -⟩ := hactive.tip
  have hinterval : shortIntervalParams.difficultyInterval ∣ bc.chain.height + 1 := by
    rw [hheight]
    exact ⟨1, rfl⟩
  have hextends : earlyChild.header.prevBlockHash = bc.chain.tipHash := htip.symm
  refine ⟨bc, blocks, hreachable, hactive.readChain, hinterval, hextends, ?_⟩
  apply (reachable_withinWindow_iff hreachable hactive.readChain hlast hinterval hextends).mpr
  intro hheader
  exact UInt32.not_lt_zero (checkBlockHeader_some_eq_ok_iff.mp hheader).2.2

/-- With one block on genesis an interval of two blocks is complete, and for the next
    block `AcceptBlock` reads `byHeight[2]` of a list of two hashes. -/
theorem withinWindow_fails_rivalChild : ∃ bc blocks, Reachable shortIntervalParams bc ∧
    bc.readChain = some blocks ∧ shortIntervalParams.difficultyInterval ∣ bc.chain.height + 1 ∧
    rivalChild.header.prevBlockHash = bc.chain.tipHash ∧
    ¬ WithinWindow shortIntervalParams blocks
      (CBlockchain.acceptBlockTraced shortIntervalParams rivalChild (bc.chain.height + 1) bc).1 := by
  obtain ⟨bc, hreachable, hheight, htip, hread⟩ := shortInterval_complete
  obtain ⟨blocks, hactive⟩ := hreachable.active
  have hlength := hactive.height
  refine ⟨bc, blocks, hreachable, hactive.readChain, ?_, htip.symm, ?_⟩
  · rw [hheight]
    exact ⟨1, rfl⟩
  · intro hwindow
    rw [hheight] at hwindow hlength
    have hinside := hwindow.inside 2 hread
    omega

end

end cdx
