import Cdx.Blockchain.Regtest
import Cdx.Mempool.Conflicts
import Cdx.Mining.Miner
import Cdx.P2p.Protocol
import Cdx.Transaction.Size

namespace cdx

/-- The `maxBlockSize` of all three networks. Nothing in the code reads it. -/
def MAX_BLOCK_SIZE : Nat := 1000000

section Transmission

variable [Crypto]

/-- The block keeps to the configured size, and a node can send it to a peer that asks for it. -/
structure CBlock.Transmittable (blk : CBlock) : Prop where
  fits : (serializeBlock blk).length ≤ MAX_BLOCK_SIZE
  framed : ∀ magic, (buildMessage magic (ascii "block") (serializeBlock blk)).isSome

theorem isSome_buildMessage_iff {command : Bytes} (hcommand : command.length ≤ 12) (magic : UInt32) (payload : Bytes) :
    (buildMessage magic command payload).isSome ↔ payload.length ≤ MAX_MESSAGE_SIZE := by
  unfold buildMessage
  split
  next hrefused =>
    refine iff_of_false (by simp) ?_
    omega
  next haccepted =>
    refine iff_of_true rfl ?_
    omega

/-- A block within the configured size is within the limit of a message too. -/
theorem CBlock.transmittable_iff (blk : CBlock) : blk.Transmittable ↔ blk.size ≤ MAX_BLOCK_SIZE := by
  rw [← length_serializeBlock]
  refine ⟨CBlock.Transmittable.fits, fun hfits => ⟨hfits, fun magic => ?_⟩⟩
  rw [isSome_buildMessage_iff (by decide)]
  exact le_trans hfits (by decide)

end Transmission

section Candidates

variable [Crypto]

/-- The entries that `CreateCandidateBlock` takes from the pool. -/
def CTxMemPool.selected (pool : CTxMemPool) (view : CCoinsView) (height : Int) : List CTxMemPoolEntry :=
  ((pool.mapTx.toList.map Prod.snd).filter fun entry => (checkTxInputs entry.tx view height).toBool).take 500

/-- The size of the block for the pool, from the sizes that the pool has recorded. The coinbase takes 100
    bytes and the push of its height. -/
def CTxMemPool.candidateSize (pool : CTxMemPool) (view : CCoinsView) (height : Int) : Nat :=
  80 + varIntSize ((pool.selected view height).length + 1) + (100 + (pushHeight height).length) +
    ((pool.selected view height).map fun entry => entry.sizeBytes).sum

/-- The selection loop takes what passes `CheckTxInputs`, in the order of the pool, until it has 500. -/
theorem selectTxs_eq_ok {view : CCoinsView} {height fees fees' : Int} {pending picked txs : List CTransaction}
    (hroom : picked.length < 500) (hselect : selectTxs view height pending picked fees = .ok (txs, fees')) :
    txs = picked ++
      (pending.filter fun tx => (checkTxInputs tx view height).toBool).take (500 - picked.length) := by
  induction pending generalizing picked fees with
  | nil =>
    cases hselect
    simp
  | cons tx rest ih =>
    unfold selectTxs at hselect
    cases hfee : checkTxInputs tx view height with
    | error reject =>
      rw [hfee] at hselect
      rw [List.filter_cons_of_neg (by simp [hfee, Except.toBool])]
      cases reject with
      | error message => exact ih hroom hselect
      | overflow sum => cases hselect
    | ok fee =>
      rw [hfee] at hselect
      obtain ⟨sum, -, hselect⟩ := bind_eq_ok_iff.mp hselect
      rw [List.filter_cons_of_pos (by simp [hfee, Except.toBool])]
      simp only [List.length_append, List.length_singleton] at hselect
      split at hselect
      next hfull =>
        cases hselect
        have hone : 500 - picked.length = 1 := by omega
        rw [hone, List.take_succ_cons, List.take_zero]
      next hmore =>
        have hlength : (picked ++ [tx]).length = picked.length + 1 := by simp
        have hsplit : 500 - picked.length = 500 - (picked ++ [tx]).length + 1 := by omega
        rw [ih (by omega) hselect, hsplit, List.take_succ_cons, List.append_assoc, List.singleton_append]

omit [Crypto] in
theorem size_minerCoinbase (height value : Int) (hash160 : Hash160) :
    (builtCoinbase (minerScript height) value (buildP2PKHScript hash160)).size = 100 + (pushHeight height).length := by
  have hpush := length_pushHeight height
  have hscript : (minerScript height).val.length = (pushHeight height).length + 15 := length_minerScriptBytes_eq height
  simp only [builtCoinbase, CTransaction.size, CTxIn.size, CTxOut.size, scriptSize, hscript, length_buildP2PKHScript,
    List.map_singleton, List.sum_singleton, List.length_singleton]
  rw [varIntSize, varIntSize, varIntSize, if_pos (by decide), if_pos (by omega), if_pos (by decide)]
  omega

/-- The size of the block is known before it is assembled. -/
theorem size_createCandidateBlock [Memory] {height fees : Int} {bits timestamp : UInt32} {prevHash : UInt256}
    {pool : CTxMemPool} {view : CCoinsView} {minerAddress : Bytes} {versionByte : UInt8} {blk : CBlock}
    (hpool : pool.SizesRecorded) (hcreate : createCandidateBlock height bits timestamp prevHash pool view minerAddress
      versionByte = .ok (blk, fees)) : blk.size = pool.candidateSize view height := by
  obtain ⟨⟨txs, sum⟩, hselect, hcreate⟩ := bind_eq_ok_iff.mp hcreate
  obtain ⟨value, -, hcreate⟩ := bind_eq_ok_iff.mp hcreate
  cases hcreate
  have htxs : txs = (pool.selected view height).map CTxMemPoolEntry.tx := by
    rw [selectTxs_eq_ok (by decide) hselect, CTxMemPool.selected, CTxMemPool.getTxs, List.nil_append, List.map_take,
      List.filter_map, List.filter_map, List.map_map]
    rfl
  have hsizes : (txs.map fun tx => tx.size) = (pool.selected view height).map fun entry => entry.sizeBytes := by
    rw [htxs, List.map_map]
    refine List.map_congr_left fun entry hentry => ?_
    obtain ⟨⟨txid, entry⟩, hlisted, rfl⟩ := List.mem_map.mp (List.mem_of_mem_filter (List.mem_of_mem_take hentry))
    rw [hpool txid entry (Std.ExtTreeMap.mem_toList_iff_getElem?_eq_some.mp hlisted), length_serializeTransaction]
    rfl
  have hcount : txs.length = (pool.selected view height).length := by rw [htxs, List.length_map]
  simp only [assembleBlock, CBlock.size, List.length_cons, List.map_cons, List.sum_cons, size_minerCoinbase, hsizes, hcount,
    CTxMemPool.candidateSize]
  omega

omit [Crypto] in
theorem lt_size_coinbasePaying (height : Nat) (script : Script) : script.val.length < (coinbasePaying height script).size := by
  simp only [CTransaction.size, coinbasePaying, CTxOut.size, scriptSize, List.map_singleton, List.sum_singleton,
    List.length_singleton]
  omega

/-- `CheckBlock` accepts a block over any limit: it does not look at the script of the coinbase's output. -/
theorem checkBlock_oversized (height : Nat) (view : CCoinsView) {limit : Nat} (hlimit : limit < 2 ^ 64) :
    ∃ blk view' fees, checkBlock blk height view = .ok (view', fees) ∧ limit < (serializeBlock blk).length := by
  have hscript : (List.replicate limit (0 : UInt8)).length < 2 ^ 64 := by rwa [List.length_replicate]
  refine ⟨_, _, _, checkBlock_coinbasePaying 0 height ⟨List.replicate limit 0, hscript⟩ 0 0 0 view, ?_⟩
  have hcoinbase := lt_size_coinbasePaying height ⟨List.replicate limit 0, hscript⟩
  rw [List.length_replicate] at hcoinbase
  rw [length_serializeBlock, CBlock.size]
  simp only [regtestBlock, List.map_singleton, List.sum_singleton]
  omega

/-- Whatever fills the pool, a block for it can be sent exactly when the sizes that the pool has recorded leave room
    for it. `CheckBlock` leaves no room: over every view and at every height it accepts blocks over any limit. -/
theorem run_transmittable_iff [Heap] [Memory] {ops : List CTxMemPool.Operation} {pool : CTxMemPool}
    (hrun : transition.run CTxMemPool.perform {} ops = some pool) :
    (∀ (height : Int) (bits timestamp : UInt32) (prevHash : UInt256) (view : CCoinsView) (minerAddress : Bytes)
      (versionByte : UInt8) (blk : CBlock) (fees : Int),
        createCandidateBlock height bits timestamp prevHash pool view minerAddress versionByte = .ok (blk, fees) →
          (blk.Transmittable ↔ pool.candidateSize view height ≤ MAX_BLOCK_SIZE)) ∧
      ∀ (height : Nat) (view : CCoinsView) (limit : Nat), MAX_BLOCK_SIZE ≤ limit → limit < 2 ^ 64 →
        ∃ blk view' fees, checkBlock blk height view = .ok (view', fees) ∧ limit < (serializeBlock blk).length ∧
          ¬ blk.Transmittable := by
  constructor
  · intro height bits timestamp prevHash view minerAddress versionByte blk fees hcreate
    rw [blk.transmittable_iff, size_createCandidateBlock (CTxMemPool.run_sizesRecorded hrun) hcreate]
  · intro height view limit hover hlimit
    obtain ⟨blk, view', fees, hcheck, hlength⟩ := checkBlock_oversized height view hlimit
    exact ⟨blk, view', fees, hcheck, hlength, fun htransmittable => by have := htransmittable.fits; omega⟩

end Candidates

section Admitted

/-- The second output of some transaction, which anyone may spend. -/
def freeOut : COutPoint := ⟨UInt256.ofWord 1, 1⟩

def freeView : CCoinsView := CCoinsView.empty.addCoin freeOut CTxMemPool.freeCoin

/-- A transaction that spends the coin into the script. -/
def paying (script : Script) : CTransaction where
  vin := [{ prevout := freeOut, scriptSig := opTrue }]
  vout := [{ value := 500, scriptPubKey := script }]

variable [Crypto]

/-- The pool after the transaction has come into an empty one. -/
def admitted (script : Script) : CTxMemPool := (CTxMemPool.addUnchecked {} (paying script) 500 1 0).2

theorem checkTx_paying (script : Script) : CTxMemPool.checkTx {} (paying script) freeView 1 = .ok 500 := by
  rfl

theorem run_admitted [Heap] (script : Script) :
    transition.run CTxMemPool.perform {} [.admission (paying script) freeView 1 0] = some (admitted script) := by
  rw [transition.run_singleton, CTxMemPool.perform, checkTx_paying]
  rfl

theorem selected_admitted (script : Script) : (admitted script).selected freeView 1 =
    [{ tx := paying script, fee := 500, time := 0, sizeBytes := (serializeTransaction (paying script)).length,
       height := 1 }] := by
  obtain ⟨-, -, hinputs, -⟩ := CTxMemPool.checkTx_eq_ok (checkTx_paying script)
  have hlist : (admitted script).mapTx.toList = [(getTxID (paying script),
      { tx := paying script, fee := 500, time := 0, sizeBytes := (serializeTransaction (paying script)).length,
        height := 1 })] :=
    orderedMap.toList_insert_empty _ _
  rw [CTxMemPool.selected, hlist, List.map_singleton, List.filter_singleton, hinputs]
  rfl

omit [Crypto] in
theorem size_paying (script : Script) : (paying script).size = 60 + scriptSize script := by
  have hone : varIntSize 1 = 1 := rfl
  have hopTrue : scriptSize opTrue = 2 := rfl
  simp only [CTransaction.size, paying, CTxIn.size, CTxOut.size, List.map_singleton, List.sum_singleton,
    List.length_singleton]
  omega

/-- The block for this pool grows with the script. -/
theorem candidateSize_admitted (script : Script) :
    (admitted script).candidateSize freeView 1 = 243 + scriptSize script := by
  have hpush : (pushHeight 1).length = 2 := by decide
  have htwo : varIntSize (1 + 1) = 1 := rfl
  simp only [CTxMemPool.candidateSize, selected_admitted, hpush, length_serializeTransaction, size_paying,
    List.map_singleton, List.sum_singleton, List.length_singleton]
  omega

theorem minable_admitted (script : Script) : Minable freeView (admitted script).getTxs := by
  obtain ⟨htx, hunspent, -, -⟩ := CTxMemPool.checkTx_eq_ok (checkTx_paying script)
  have honly : ∀ tx ∈ (admitted script).getTxs, tx = paying script := by
    intro tx hmem
    obtain ⟨txid, entry, hentry, rfl⟩ := CTxMemPool.mem_getTxs hmem
    rcases CTxMemPool.mapTx_addUnchecked hentry with hold | ⟨-, hnew, -⟩
    · simp at hold
    · exact hnew
  refine ⟨?_, (CTxMemPool.coherent_empty.addUnchecked hunspent 500 1 0).pairwise_getTxs, ?_⟩
  · intro tx hmem
    rw [honly tx hmem]
    exact htx
  · intro tx hmem out txOut coin hcreates hcoin
    rw [honly tx hmem] at hcreates
    rw [freeView, CCoinsView.getCoin_addCoin, CCoinsView.getCoin_empty] at hcoin
    split at hcoin
    next hout =>
      -- The transaction has one output, so it does not make the second again.
      subst hout
      cases hcreates.2
    · cases hcoin

theorem candidate_admitted [Memory] (script : Script) : ∃ blk fees view',
    createCandidateBlock 1 0 0 0 (admitted script) freeView [] 0 = .ok (blk, fees) ∧
      checkBlock blk 1 freeView = .ok (view', fees) := by
  have hcoin : 0 ≤ CTxMemPool.freeCoin.value.toInt ∧ CTxMemPool.freeCoin.value.toInt ≤ MAX_MONEY := by decide
  have hview : freeView.InRange := CCoinsView.inRange_empty.addCoin freeOut hcoin
  have htotal : freeView.totalValue + getBlockSubsidy 1 ≤ MAX_MONEY := by decide +kernel
  obtain ⟨blk, fees, view', hcreate, hcheck, -⟩ :=
    createCandidateBlock_valid hview htotal (minable_admitted script) 0 0 0 [] 0
  exact ⟨blk, fees, view', hcreate, hcheck⟩

end Admitted

section

attribute [local instance] toolCrypto zeroMemory CTxMemPool.clearingHeap

/-- The block with one small transaction, and one over the limit of a message that `CheckBlock` accepts at the same
    height over the same view. -/
theorem run_transmittable_small :
    transition.run CTxMemPool.perform {} [.admission (paying opTrue) freeView 1 0] = some (admitted opTrue) ∧
      (∃ blk fees, createCandidateBlock 1 0 0 0 (admitted opTrue) freeView [] 0 = .ok (blk, fees) ∧ blk.Transmittable) ∧
      ∃ blk view' fees, checkBlock blk 1 freeView = .ok (view', fees) ∧
        MAX_MESSAGE_SIZE < (serializeBlock blk).length ∧ ¬ blk.Transmittable := by
  have hboth := run_transmittable_iff (run_admitted opTrue)
  obtain ⟨blk, fees, -, hcreate, -⟩ := candidate_admitted opTrue
  refine ⟨run_admitted opTrue, ⟨blk, fees, hcreate, ?_⟩, hboth.2 1 freeView MAX_MESSAGE_SIZE (by decide) (by decide)⟩
  apply (hboth.1 _ _ _ _ _ _ _ _ _ hcreate).mpr
  rw [candidateSize_admitted]
  decide

theorem length_largeScript : (List.replicate 4194239 (0 : UInt8)).length < 2 ^ 64 := by
  rw [List.length_replicate]
  decide

def largeScript : Script := ⟨List.replicate 4194239 0, length_largeScript⟩

theorem scriptSize_largeScript : scriptSize largeScript = 4194244 := by
  have hlength : largeScript.val.length = 4194239 := List.length_replicate
  rw [scriptSize, hlength]
  rfl

/-- A transaction that just fits a message comes into the pool. The block with it passes `CheckBlock`, is over the
    configured size, and fits no message. -/
theorem transmittable_fails_largeScript : ∃ blk fees view',
    (∀ magic, (buildMessage magic (ascii "tx") (serializeTransaction (paying largeScript))).isSome) ∧
      transition.run CTxMemPool.perform {} [.admission (paying largeScript) freeView 1 0] = some (admitted largeScript) ∧
      createCandidateBlock 1 0 0 0 (admitted largeScript) freeView [] 0 = .ok (blk, fees) ∧
      checkBlock blk 1 freeView = .ok (view', fees) ∧ MAX_BLOCK_SIZE < (serializeBlock blk).length ∧
      ∀ magic, buildMessage magic (ascii "block") (serializeBlock blk) = none := by
  obtain ⟨blk, fees, view', hcreate, hcheck⟩ := candidate_admitted largeScript
  have hsize : (serializeBlock blk).length = 4194487 := by
    rw [length_serializeBlock, size_createCandidateBlock (CTxMemPool.run_sizesRecorded (run_admitted largeScript)) hcreate,
      candidateSize_admitted, scriptSize_largeScript]
  refine ⟨blk, fees, view', ?_, run_admitted largeScript, hcreate, hcheck, ?_, ?_⟩
  · intro magic
    rw [isSome_buildMessage_iff (by decide), length_serializeTransaction, size_paying, scriptSize_largeScript]
    decide
  · rw [hsize]
    decide
  · intro magic
    rw [← Option.not_isSome_iff_eq_none, isSome_buildMessage_iff (by decide), hsize]
    decide

end

end cdx
