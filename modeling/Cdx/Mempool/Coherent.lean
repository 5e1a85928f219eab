import Cdx.Consensus.Supply
import Cdx.Mempool.Mempool

namespace cdx

namespace CTxMemPool

theorem lookup_insertPrevOuts (spent : Std.ExtTreeMap COutPoint UInt256) (ins : List CTxIn) (txid : UInt256)
    (out : COutPoint) :
    (ins.foldl (fun spent i => spent.insert i.prevout txid) spent)[out]? =
      if out ∈ ins.map CTxIn.prevout then some txid else spent[out]? := by
  induction ins generalizing spent with
  | nil => simp
  | cons i rest ih =>
    rw [List.foldl_cons, ih, orderedMap.lookup_insert, List.map_cons]
    exact orderedMap.ite_mem_cons ..

/-- `RemoveTx` forgets an outpoint only where it is recorded for the removed transaction. -/
theorem lookup_erasePrevOuts (spent : Std.ExtTreeMap COutPoint UInt256) (ins : List CTxIn) (txid : UInt256)
    (out : COutPoint) :
    (ins.foldl (fun spent i => if spent[i.prevout]? = some txid then spent.erase i.prevout else spent) spent)[out]? =
      if out ∈ ins.map CTxIn.prevout ∧ spent[out]? = some txid then none else spent[out]? := by
  induction ins generalizing spent with
  | nil => simp
  | cons i rest ih =>
    have hstep : (if spent[i.prevout]? = some txid then spent.erase i.prevout else spent)[out]? =
        if out = i.prevout ∧ spent[out]? = some txid then none else spent[out]? := by
      split
      next hown =>
        rw [orderedMap.lookup_erase]
        by_cases hself : out = i.prevout
        · rw [if_pos hself, if_pos ⟨hself, hself ▸ hown⟩]
        · rw [if_neg hself, if_neg (fun h => hself h.1)]
      next hother =>
        rw [if_neg]
        rintro ⟨rfl, hown⟩
        exact hother hown
    rw [List.foldl_cons, ih, hstep]
    simp only [List.map_cons, List.mem_cons]
    by_cases hself : out = i.prevout <;> by_cases hown : spent[out]? = some txid <;> simp [hself, hown]

variable [Crypto]

/-- What `CheckTx` establishes. -/
theorem checkTx_eq_ok {pool : CTxMemPool} {tx : CTransaction} {view : CCoinsView} {height fee : Int}
    (hcheck : pool.checkTx tx view height = .ok fee) :
    checkTransaction tx = .ok () ∧ (∀ out ∈ tx.vin.map CTxIn.prevout, pool.mapPrevOut[out]? = none) ∧
      checkTxInputs tx view height = .ok fee ∧ 100 ≤ fee := by
  unfold checkTx at hcheck
  split at hcheck
  · cases hcheck
  obtain ⟨_, htx, hcheck⟩ := bind_eq_ok_iff.mp hcheck
  split at hcheck
  · cases hcheck
  next hunspent =>
    obtain ⟨fee', hfee, hcheck⟩ := bind_eq_ok_iff.mp hcheck
    split at hcheck
    · cases hcheck
    next hminimum =>
      cases hcheck
      refine ⟨htx, ?_, hfee, not_lt.mp hminimum⟩
      intro out hout
      obtain ⟨i, hi, rfl⟩ := List.mem_map.mp hout
      rw [List.any_eq_true, not_exists] at hunspent
      simpa using fun h => hunspent i ⟨hi, h⟩

/-- `CheckTx` of a transaction that is valid and pays enough looks for its inputs in the pool only. -/
theorem checkTx_of_valid (pool : CTxMemPool) {tx : CTransaction} {view : CCoinsView} {height fee : Int}
    (htx : checkTransaction tx = .ok ()) (hinputs : checkTxInputs tx view height = .ok fee) (hfee : 100 ≤ fee) :
    pool.checkTx tx view height =
      if tx.vin.any fun i => pool.mapPrevOut.contains i.prevout then .error (.error "double spend (already in mempool)")
      else .ok fee := by
  have hcoinbase : ¬tx.isCoinBase = true := by
    rw [(checkTxInputs_eq_ok hinputs).1]
    exact Bool.false_ne_true
  rw [checkTx, if_neg hcoinbase, htx, bind_ok, hinputs, bind_ok, if_neg (not_lt.mpr hfee)]

theorem checkTx_noOverflow (pool : CTxMemPool) (tx : CTransaction) {view : CCoinsView} (hview : view.InRange)
    (height : Int) : NoOverflow (pool.checkTx tx view height) := by
  unfold checkTx
  split
  · exact noOverflow_error _
  apply NoOverflow.bind (checkTransaction_noOverflow tx)
  intro _ htx
  split
  · exact noOverflow_error _
  apply NoOverflow.bind (checkTxInputs_noOverflow (wellFormed_of_checkTransaction htx) hview height)
  intro fee _
  split
  · exact noOverflow_error _
  · exact noOverflow_ok fee

/-- The two maps of the pool agree: an outpoint is recorded for the transaction of the
    pool that spends it, and for nothing else. -/
structure Coherent (pool : CTxMemPool) : Prop where
  ids : ∀ (txid : UInt256) (entry : CTxMemPoolEntry), pool.mapTx[txid]? = some entry → getTxID entry.tx = txid
  spent : ∀ (out : COutPoint) (txid : UInt256), pool.mapPrevOut[out]? = some txid ↔
    ∃ entry : CTxMemPoolEntry, pool.mapTx[txid]? = some entry ∧ out ∈ entry.tx.vin.map CTxIn.prevout

theorem coherent_empty : Coherent {} := by
  refine ⟨?_, ?_⟩ <;> simp

/-- No two transactions of the pool spend the same outpoint. -/
theorem Coherent.disjoint {pool : CTxMemPool} (hpool : Coherent pool) {txid txid' : UInt256}
    {entry entry' : CTxMemPoolEntry} (hentry : pool.mapTx[txid]? = some entry)
    (hentry' : pool.mapTx[txid']? = some entry') {out : COutPoint} (hout : out ∈ entry.tx.vin.map CTxIn.prevout)
    (hout' : out ∈ entry'.tx.vin.map CTxIn.prevout) : txid = txid' := by
  have hfirst := (hpool.spent out txid).mpr ⟨entry, hentry, hout⟩
  have hsecond := (hpool.spent out txid').mpr ⟨entry', hentry', hout'⟩
  exact Option.some.inj (hfirst.symm.trans hsecond)

omit [Crypto] in
theorem mem_getTxs {pool : CTxMemPool} {tx : CTransaction} (htx : tx ∈ pool.getTxs) :
    ∃ (txid : UInt256) (entry : CTxMemPoolEntry), pool.mapTx[txid]? = some entry ∧ entry.tx = tx := by
  obtain ⟨⟨txid, entry⟩, hentry, rfl⟩ := List.mem_map.mp htx
  exact ⟨txid, entry, Std.ExtTreeMap.mem_toList_iff_getElem?_eq_some.mp hentry, rfl⟩

theorem Coherent.pairwise_getTxs {pool : CTxMemPool} (hpool : Coherent pool) :
    pool.getTxs.Pairwise fun a b => ∀ out ∈ a.vin.map CTxIn.prevout, out ∉ b.vin.map CTxIn.prevout := by
  rw [getTxs, List.pairwise_map]
  refine (orderedMap.pairwise_toList pool.mapTx).imp ?_
  rintro ⟨txid, entry⟩ ⟨txid', entry'⟩ ⟨hentry, hentry', hne⟩ out hout hout'
  exact hne (hpool.disjoint hentry hentry' hout hout')

theorem mapTx_addUnchecked {pool : CTxMemPool} {tx : CTransaction} {fee height now : Int} {txid : UInt256}
    {entry : CTxMemPoolEntry} (hentry : (pool.addUnchecked tx fee height now).2.mapTx[txid]? = some entry) :
    pool.mapTx[txid]? = some entry ∨
      txid = getTxID tx ∧ entry.tx = tx ∧ entry.fee = fee ∧ entry.sizeBytes = (serializeTransaction tx).length := by
  unfold addUnchecked at hentry
  simp only at hentry
  split at hentry
  · exact Or.inl hentry
  · replace hentry := (orderedMap.lookup_insert ..).symm.trans hentry
    split at hentry
    next hid =>
      cases hentry
      exact Or.inr ⟨hid, rfl, rfl, rfl⟩
    · exact Or.inl hentry

/-- Admission keeps the maps together, because `CheckTx` lets no outpoint in twice. -/
theorem Coherent.addUnchecked {pool : CTxMemPool} (hpool : Coherent pool) {tx : CTransaction}
    (hunspent : ∀ out ∈ tx.vin.map CTxIn.prevout, pool.mapPrevOut[out]? = none) (fee height now : Int) :
    Coherent (pool.addUnchecked tx fee height now).2 := by
  unfold CTxMemPool.addUnchecked
  simp only
  split
  · exact hpool
  next hnew =>
  have hnone : pool.mapTx[getTxID tx]? = none := by simpa using hnew
  refine ⟨?_, ?_⟩
  · intro txid entry hentry
    replace hentry := (orderedMap.lookup_insert ..).symm.trans hentry
    split at hentry
    next hid =>
      cases hentry
      exact hid.symm
    · exact hpool.ids txid entry hentry
  · intro out txid
    rw [lookup_insertPrevOuts]
    simp only [orderedMap.lookup_insert]
    by_cases hspends : out ∈ tx.vin.map CTxIn.prevout
    · rw [if_pos hspends]
      constructor
      · intro hid
        cases hid
        exact ⟨_, if_pos rfl, hspends⟩
      · rintro ⟨entry, hentry, hout⟩
        split at hentry
        next hid => rw [hid]
        · -- An older transaction would already have been recorded at the outpoint.
          have hold := (hpool.spent out txid).mpr ⟨entry, hentry, hout⟩
          rw [hunspent out hspends] at hold
          cases hold
    · rw [if_neg hspends, hpool.spent]
      constructor
      · rintro ⟨entry, hentry, hout⟩
        refine ⟨entry, ?_, hout⟩
        rw [if_neg, hentry]
        rintro rfl
        rw [hnone] at hentry
        cases hentry
      · rintro ⟨entry, hentry, hout⟩
        split at hentry
        · cases hentry
          exact absurd hout hspends
        · exact ⟨entry, hentry, hout⟩

theorem Coherent.removeTx {pool : CTxMemPool} (hpool : Coherent pool) (txid : UInt256) : Coherent (pool.removeTx txid) := by
  refine ⟨?_, ?_⟩
  · intro query entry hentry
    rw [mapTx_removeTx] at hentry
    split at hentry
    · cases hentry
    · exact hpool.ids query entry hentry
  · intro out query
    simp only [mapTx_removeTx]
    cases hentry : pool.mapTx[txid]? with
    | none =>
      have hsame : pool.removeTx txid = pool := by
        rw [CTxMemPool.removeTx, hentry]
      rw [hsame, hpool.spent]
      refine exists_congr fun entry => and_congr_left' ?_
      by_cases hid : query = txid
      · rw [if_pos hid, hid, hentry]
      · rw [if_neg hid]
    | some removed =>
      have hspent : (pool.removeTx txid).mapPrevOut[out]? =
          if out ∈ removed.tx.vin.map CTxIn.prevout ∧ pool.mapPrevOut[out]? = some txid then none
          else pool.mapPrevOut[out]? := by
        rw [CTxMemPool.removeTx, hentry]
        exact lookup_erasePrevOuts ..
      rw [hspent]
      by_cases hid : query = txid
      · subst hid
        simp only [if_true, reduceCtorEq, false_and, exists_false, iff_false]
        split
        · exact fun h => by cases h
        next hother =>
          intro hown
          obtain ⟨entry, hfound, hout⟩ := (hpool.spent out query).mp hown
          rw [hentry] at hfound
          cases hfound
          exact hother ⟨hout, hown⟩
      · simp only [if_neg hid]
        rw [← hpool.spent]
        split
        next hown =>
          rw [hown.2]
          constructor
          · exact fun h => by cases h
          · exact fun h => absurd (Option.some.inj h).symm hid
        · rfl

theorem Coherent.removeSpent {pool : CTxMemPool} (hpool : Coherent pool) (view : CCoinsView) (height : Int) :
    Coherent (pool.removeSpent view height).2 := by
  unfold CTxMemPool.removeSpent
  simp only
  generalize (pool.mapTx.toList.filter fun kv => isSpent kv.2.tx view height).map Prod.fst = ids
  induction ids generalizing pool with
  | nil => exact hpool
  | cons txid rest ih => exact ih (hpool.removeTx txid)

end CTxMemPool

end cdx
