import Cdx.Blockchain.Reorg
import Cdx.Storage.Lookup

namespace cdx

namespace CBlockchain

variable [Memory]

/-- The chain after a read: the storage has its index loaded. -/
def touch (bc : CBlockchain) : CBlockchain := { bc with storage := bc.storage.loadIndex }

theorem touch_storage (bc : CBlockchain) : bc.touch.storage = bc.storage.loadIndex := rfl

/-- The chain is as before, up to a loaded storage index. -/
def Touched (bc bc' : CBlockchain) : Prop := bc' = bc ∨ bc' = bc.touch

theorem touch_touch (bc : CBlockchain) : bc.touch.touch = bc.touch := by
  rw [touch, touch, CBlockStorage.loadIndex_loadIndex]

theorem Touched.trans {a b c : CBlockchain} (hab : Touched a b) (hbc : Touched b c) : Touched a c := by
  rcases hab with rfl | rfl
  · exact hbc
  · rcases hbc with rfl | rfl
    · exact Or.inr rfl
    · exact Or.inr (touch_touch a)

theorem Touched.chain_eq {bc bc' : CBlockchain} (htouched : Touched bc bc') : bc'.chain = bc.chain := by
  rcases htouched with rfl | rfl <;> rfl

theorem Touched.disk_eq {bc bc' : CBlockchain} (htouched : Touched bc bc') : bc'.storage.disk = bc.storage.disk := by
  rcases htouched with rfl | rfl
  · rfl
  · exact CBlockStorage.loadIndex_disk bc.storage

theorem Touched.of_touch {bc bc' : CBlockchain} (htouched : Touched bc.touch bc') : bc' = bc.touch := by
  rcases htouched with rfl | rfl
  · rfl
  · exact touch_touch bc

variable [Crypto]

theorem Touched.stored_eq {bc bc' : CBlockchain} (htouched : Touched bc bc') (hash : UInt256) :
    bc'.storage.stored hash = bc.storage.stored hash := by
  rcases htouched with rfl | rfl
  · rfl
  · exact CBlockStorage.stored_loadIndex bc.storage hash

/-- The block that a read through `byHeight[i]` finds. -/
def blockAt (bc : CBlockchain) (i : Nat) : Option CBlock :=
  match bc.chain.byHeight[i]? with
  | some hash => bc.storage.stored hash
  | none => Memory.readPastEnd bc.chain.byHeight i

theorem readAt_fst (bc : CBlockchain) (i : Nat) : (bc.readAt i).1 = bc.blockAt i := by
  unfold readAt blockAt
  cases bc.chain.byHeight[i]? <;> rfl

theorem readAt_snd (bc : CBlockchain) (i : Nat) : Touched bc (bc.readAt i).2 := by
  unfold readAt
  cases bc.chain.byHeight[i]? with
  | none => exact Or.inl rfl
  | some hash => exact Or.inr rfl

theorem Touched.blockAt_eq {bc bc' : CBlockchain} (htouched : Touched bc bc') (i : Nat) :
    bc'.blockAt i = bc.blockAt i := by
  unfold blockAt
  rw [htouched.chain_eq]
  cases bc.chain.byHeight[i]? with
  | none => rfl
  | some hash => exact htouched.stored_eq hash

/-- The start time of the difficulty interval for the block after `prevHeight`. -/
def firstTime (bc : CBlockchain) (params : ChainParams) (prev : CBlockHeader) (prevHeight : Int) : Int :=
  let intervalStartHeight := (prevHeight + 1).tdiv params.difficultyInterval * params.difficultyInterval
  if intervalStartHeight > 0 then
    match bc.blockAt intervalStartHeight.toNat with
    | some firstBlk => firstBlk.header.timestamp.toNat
    | none => prev.timestamp.toNat
  else prev.timestamp.toNat

theorem intervalStartTime_spec (bc : CBlockchain) (params : ChainParams) (prev : CBlockHeader) (prevHeight : Int) :
    (bc.intervalStartTime params prev prevHeight).1 = bc.firstTime params prev prevHeight ∧
      Touched bc (bc.intervalStartTime params prev prevHeight).2 := by
  unfold intervalStartTime firstTime
  simp only
  split
  · have hblk := readAt_fst bc ((prevHeight + 1).tdiv params.difficultyInterval * params.difficultyInterval).toNat
    have htouched := readAt_snd bc ((prevHeight + 1).tdiv params.difficultyInterval * params.difficultyInterval).toNat
    rw [← hblk]
    split
    next firstBlk bc' heq =>
      rw [heq] at htouched ⊢
      exact ⟨rfl, htouched⟩
    next bc' heq =>
      rw [heq] at htouched ⊢
      exact ⟨rfl, htouched⟩
  · exact ⟨rfl, Or.inl rfl⟩

theorem getBlockByHeight_fst (bc : CBlockchain) (h : Nat) :
    (bc.getBlockByHeight h).1 = if (h : Int) ≤ bc.chain.height then bc.blockAt h else none := by
  unfold getBlockByHeight
  by_cases hle : (h : Int) ≤ bc.chain.height
  · rw [if_neg (by omega), if_pos hle, Int.toNat_natCast, readAt_fst]
  · rw [if_pos (by omega), if_neg hle]

theorem getBlockByHeight_snd (bc : CBlockchain) (h : Nat) : Touched bc (bc.getBlockByHeight h).2 := by
  unfold getBlockByHeight
  split
  · exact Or.inl rfl
  · exact readAt_snd bc _

theorem Touched.getBlockByHeight_eq {bc bc' : CBlockchain} (htouched : Touched bc bc') (h : Nat) :
    (bc'.getBlockByHeight h).1 = (bc.getBlockByHeight h).1 := by
  rw [getBlockByHeight_fst, getBlockByHeight_fst, htouched.chain_eq, htouched.blockAt_eq]

theorem collectFork_snd (count h : Nat) (bc : CBlockchain) : Touched bc (collectFork count h bc).2 := by
  induction count generalizing h bc with
  | zero => exact Or.inl rfl
  | succ count ih =>
    have hread := getBlockByHeight_snd bc h
    unfold collectFork
    split
    next bc' heq =>
      rw [heq] at hread
      exact hread
    next blk bc' heq =>
      rw [heq] at hread
      have hrest := ih (h + 1) bc'
      split
      next message bc'' heq' =>
        rw [heq'] at hrest
        exact hread.trans hrest
      next blocks bc'' heq' =>
        rw [heq'] at hrest
        exact hread.trans hrest

/-- The blocks collected for a fork are the ones read at their heights. -/
theorem collectFork_eq_ok {count h : Nat} {bc : CBlockchain} {blocks : List CBlock}
    (hcollect : (collectFork count h bc).1 = .ok blocks) :
    blocks.length = count ∧ ∀ i blk, blocks[i]? = some blk → (bc.getBlockByHeight (h + i : Nat)).1 = some blk := by
  induction count generalizing h bc blocks with
  | zero =>
    cases hcollect
    simp
  | succ count ih =>
    have htouched := getBlockByHeight_snd bc h
    unfold collectFork at hcollect
    split at hcollect
    · cases hcollect
    next first bc' hfirst =>
      rw [hfirst] at htouched
      split at hcollect
      · cases hcollect
      next rest bc'' hrest =>
        cases hcollect
        obtain ⟨hlen, hreads⟩ := ih (congrArg Prod.fst hrest)
        refine ⟨by rw [List.length_cons, hlen], ?_⟩
        intro i blk hi
        cases i with
        | zero =>
          cases hi
          rw [Nat.add_zero, hfirst]
        | succ i =>
          rw [← htouched.getBlockByHeight_eq, show h + (i + 1) = h + 1 + i by omega]
          exact hreads i blk hi

/-- Blocks that read at their heights are collected. -/
theorem collectFork_of_reads {h : Nat} {bc : CBlockchain} {blocks : List CBlock}
    (hreads : ∀ i blk, blocks[i]? = some blk → (bc.getBlockByHeight (h + i : Nat)).1 = some blk) :
    (collectFork blocks.length h bc).1 = .ok blocks := by
  induction blocks generalizing h bc with
  | nil => rfl
  | cons first rest ih =>
    have htouched := getBlockByHeight_snd bc h
    have hfirst := hreads 0 first rfl
    rw [Nat.add_zero] at hfirst
    have hrest : (collectFork rest.length (h + 1) (bc.getBlockByHeight h).2).1 = .ok rest := by
      apply ih
      intro i blk hi
      rw [htouched.getBlockByHeight_eq, show h + 1 + i = h + (i + 1) by omega]
      exact hreads (i + 1) blk hi
    rw [List.length_cons, collectFork, show bc.getBlockByHeight h = (some first, (bc.getBlockByHeight h).2) from
      Prod.ext hfirst rfl]
    simp only
    split
    next message bc' heq =>
      rw [heq] at hrest
      cases hrest
    next blocks bc' heq =>
      rw [heq] at hrest
      cases hrest
      rfl

theorem firstTime_touch (bc : CBlockchain) (params : ChainParams) (prev : CBlockHeader) (prevHeight : Int) :
    bc.touch.firstTime params prev prevHeight = bc.firstTime params prev prevHeight := by
  have htouched : Touched bc bc.touch := Or.inr rfl
  unfold firstTime
  simp only [htouched.blockAt_eq]

/-- `AcceptBlock` with its reads written as lookups: they change nothing but the
    storage's index cache. -/
theorem acceptBlock_eq (params : ChainParams) (blk : CBlock) (height : Int) (bc : CBlockchain) :
    acceptBlock params blk height bc =
      match bc.getIndex blk.header.prevBlockHash with
      | none => .ok (.error "unknown prev block", bc)
      | some prevIdx =>
        match bc.storage.stored blk.header.prevBlockHash with
        | none => .ok (.error "cannot read prev block", bc.touch)
        | some prevBlk =>
          match checkBlockHeader blk.header (some prevBlk.header) params with
          | .error message => .ok (.error message, bc.touch)
          | .ok () =>
            if blk.header.bits ≠ getNextWorkRequired prevBlk.header.timestamp.toNat prevIdx.height
                prevBlk.header.bits (bc.firstTime params prevBlk.header prevIdx.height) params then
              .ok (.error "incorrect difficulty bits", bc.touch)
            else
              match checkBlock blk height bc.chain.view with
              | .error (.error message) => .ok (.error message, bc.touch)
              | .error (.overflow sum) => .error sum
              | .ok (newView, _) => .ok (.ok (), bc.touch.applyBlock blk height prevIdx newView) := by
  unfold acceptBlock
  cases hindex : bc.getIndex blk.header.prevBlockHash with
  | none => rfl
  | some prevIdx =>
    simp only [show bc.readBlock blk.header.prevBlockHash =
      (bc.storage.stored blk.header.prevBlockHash, bc.touch) from rfl]
    cases hstored : bc.storage.stored blk.header.prevBlockHash with
    | none => rfl
    | some prevBlk =>
      simp only
      cases hheader : checkBlockHeader blk.header (some prevBlk.header) params with
      | error message => rfl
      | ok _ =>
        obtain ⟨htime, htouched⟩ := intervalStartTime_spec bc.touch params prevBlk.header prevIdx.height
        rw [firstTime_touch] at htime
        simp only [htime, htouched.of_touch]
        rfl

/-- Only an overflow in `CheckBlock` keeps `AcceptBlock` from returning. -/
theorem acceptBlock_ne_error {params : ChainParams} {blk : CBlock} {height : Int} {bc : CBlockchain}
    (hcheck : NoOverflow (checkBlock blk height bc.chain.view)) (sum : Sum64) :
    acceptBlock params blk height bc ≠ .error sum := by
  intro hfailed
  rw [acceptBlock_eq] at hfailed
  split at hfailed
  · cases hfailed
  split at hfailed
  · cases hfailed
  split at hfailed
  · cases hfailed
  split at hfailed
  · cases hfailed
  split at hfailed
  · cases hfailed
  next sum' hoverflow => exact hcheck sum' hoverflow
  · cases hfailed

/-- What a delivery does: the block is known, is rejected, extends the chain or
    replaces its end. -/
inductive Delivered (params : ChainParams) (blk : CBlock) (bc : CBlockchain) : ReorgResult → CBlockchain → Prop where
  | known (hknown : bc.haveBlock blk.getHash = true) : Delivered params blk bc { ok := true } bc
  | rejected (message : String) {bc' : CBlockchain} (hunknown : bc.haveBlock blk.getHash = false)
      (htouched : Touched bc bc') : Delivered params blk bc { error := message } bc'
  | extended {prevIdx : CBlockIndex} {prevBlk : CBlock} {newView : CCoinsView} {fees : Int} {bc' : CBlockchain}
      (hunknown : bc.haveBlock blk.getHash = false)
      (hindex : bc.getIndex blk.header.prevBlockHash = some prevIdx)
      (htip : blk.header.prevBlockHash = bc.chain.tipHash)
      (hprev : bc.storage.stored blk.header.prevBlockHash = some prevBlk)
      (hheader : checkBlockHeader blk.header (some prevBlk.header) params = .ok ())
      (hbits : blk.header.bits = getNextWorkRequired prevBlk.header.timestamp.toNat prevIdx.height
        prevBlk.header.bits (bc.firstTime params prevBlk.header prevIdx.height) params)
      (hcheck : checkBlock blk (prevIdx.height + 1) bc.chain.view = .ok (newView, fees))
      (hresult : bc' = bc.touch.applyBlock blk (prevIdx.height + 1) prevIdx newView) :
      Delivered params blk bc { ok := true, connected := [blk.getHash] } bc'
  | reorganised {prevIdx : CBlockIndex} {blocks : List CBlock} {freshView : CCoinsView} {newByHeight : List UInt256}
      {mid bc' : CBlockchain}
      (hunknown : bc.haveBlock blk.getHash = false)
      (hindex : bc.getIndex blk.header.prevBlockHash = some prevIdx)
      (hfork : blk.header.prevBlockHash ≠ bc.chain.tipHash)
      (hwork : bc.chain.chainWork < prevIdx.chainWork + getBlockWork blk.header.bits)
      (hcollect : collectFork (prevIdx.height + 1).toNat 0 bc = (.ok blocks, mid))
      (hvalidate : validateFork params (blocks ++ [blk]) none 0 {} [] = .ok (freshView, newByHeight))
      (hresult : bc' = mid.replaceChain blk freshView newByHeight) :
      Delivered params blk bc { ok := true, forkHeight := prevIdx.height, connected := newByHeight } bc'

/-- Every delivery that returns is one of the four. -/
theorem delivered_of_tryAcceptBlock {params : ChainParams} {blk : CBlock} {bc bc' : CBlockchain} {r : ReorgResult}
    (haccept : tryAcceptBlock params blk bc = .ok (r, bc')) : Delivered params blk bc r bc' := by
  unfold tryAcceptBlock at haccept
  split at haccept
  next hknown =>
    cases haccept
    exact .known hknown
  next hknown =>
  have hunknown : bc.haveBlock blk.getHash = false := by simpa using hknown
  split at haccept
  · cases haccept
    exact .rejected _ hunknown (Or.inl rfl)
  next prevIdx hindex =>
  split at haccept
  next htip =>
    -- Direct extension: every exit of `acceptBlock` before the last one is a rejection.
    rw [acceptBlock_eq, hindex] at haccept
    simp only at haccept
    cases hprev : bc.storage.stored blk.header.prevBlockHash with
    | none =>
      simp only [hprev] at haccept
      cases haccept
      exact .rejected _ hunknown (Or.inr rfl)
    | some prevBlk =>
      simp only [hprev] at haccept
      cases hheader : checkBlockHeader blk.header (some prevBlk.header) params with
      | error message =>
        simp only [hheader] at haccept
        cases haccept
        exact .rejected _ hunknown (Or.inr rfl)
      | ok _ =>
        simp only [hheader] at haccept
        by_cases hbits : blk.header.bits = getNextWorkRequired prevBlk.header.timestamp.toNat prevIdx.height
            prevBlk.header.bits (bc.firstTime params prevBlk.header prevIdx.height) params
        · rw [if_neg (not_not.mpr hbits)] at haccept
          cases hcheck : checkBlock blk (prevIdx.height + 1) bc.chain.view with
          | error reject =>
            cases reject with
            | error message =>
              simp only [hcheck] at haccept
              cases haccept
              exact .rejected _ hunknown (Or.inr rfl)
            | overflow sum =>
              simp only [hcheck] at haccept
              cases haccept
          | ok result =>
            obtain ⟨newView, fees⟩ := result
            simp only [hcheck] at haccept
            cases haccept
            exact .extended hunknown hindex htip hprev hheader hbits hcheck rfl
        · rw [if_pos hbits] at haccept
          simp only at haccept
          cases haccept
          exact .rejected _ hunknown (Or.inr rfl)
  next hfork =>
    unfold acceptFork at haccept
    simp only at haccept
    split at haccept
    · cases haccept
      exact .rejected _ hunknown (Or.inl rfl)
    next hwork =>
    have htouched := collectFork_snd (prevIdx.height + 1).toNat 0 bc
    split at haccept
    next message mid hcollect =>
      rw [hcollect] at htouched
      cases haccept
      exact .rejected _ hunknown htouched
    next blocks mid hcollect =>
      rw [hcollect] at htouched
      split at haccept
      · cases haccept
        exact .rejected _ hunknown htouched
      · cases haccept
      next freshView newByHeight hvalidate =>
        cases haccept
        exact .reorganised hunknown hindex hfork (not_le.mp hwork) hcollect hvalidate rfl

end CBlockchain

end cdx
