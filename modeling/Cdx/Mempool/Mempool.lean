import Cdx.Consensus.Accepted

namespace cdx

structure CTxMemPoolEntry where
  tx : CTransaction
  fee : Int
  time : Int
  sizeBytes : Nat
  height : Int
deriving DecidableEq

/-- The pool: its transactions by id, and the id of the transaction that spends each outpoint. -/
structure CTxMemPool where
  mapTx : Std.ExtTreeMap UInt256 CTxMemPoolEntry := ∅
  mapPrevOut : Std.ExtTreeMap COutPoint UInt256 := ∅

namespace CTxMemPool

section Operations

variable [Crypto]

/-- Whether the id was new, and the pool with the transaction. -/
def addUnchecked (pool : CTxMemPool) (tx : CTransaction) (fee height now : Int) : Bool × CTxMemPool :=
  let txid := getTxID tx
  if pool.mapTx.contains txid then (false, pool)
  else
    (true, {
      mapTx := pool.mapTx.insert txid
        { tx := tx, fee := fee, time := now, sizeBytes := (serializeTransaction tx).length, height := height }
      mapPrevOut := tx.vin.foldl (fun spent i => spent.insert i.prevout txid) pool.mapPrevOut })

/-- The fee of a transaction that may enter the pool. -/
def checkTx (pool : CTxMemPool) (tx : CTransaction) (view : CCoinsView) (height : Int) : Except Reject Int :=
  if tx.isCoinBase then .error (.error "coinbase cannot enter mempool")
  else do
    checkTransaction tx
    if tx.vin.any fun i => pool.mapPrevOut.contains i.prevout then .error (.error "double spend (already in mempool)")
    else do
      let fee ← checkTxInputs tx view height
      if fee < 100 then .error (.error "fee below minimum") else .ok fee

end Operations

def removeTx (pool : CTxMemPool) (txid : UInt256) : CTxMemPool :=
  match pool.mapTx[txid]? with
  | none => pool
  | some entry => {
      mapTx := pool.mapTx.erase txid
      mapPrevOut := entry.tx.vin.foldl
        (fun spent i => if spent[i.prevout]? = some txid then spent.erase i.prevout else spent) pool.mapPrevOut }

def getTxs (pool : CTxMemPool) : List CTransaction := pool.mapTx.toList.map fun kv => kv.2.tx

/-- The test of `RemoveSpent`: an input without a coin, or with one that is not mature. -/
def isSpent (tx : CTransaction) (view : CCoinsView) (height : Int) : Bool :=
  tx.vin.any fun i =>
    match view.getCoin i.prevout with
    | none => true
    | some coin => coin.isSpendable height = false

/-- The ids it removes, and the pool without them. -/
def removeSpent (pool : CTxMemPool) (view : CCoinsView) (height : Int) : List UInt256 × CTxMemPool :=
  let toRemove := (pool.mapTx.toList.filter fun kv => isSpent kv.2.tx view height).map Prod.fst
  (toRemove, toRemove.foldl removeTx pool)

theorem mapTx_removeTx (pool : CTxMemPool) (txid query : UInt256) :
    (pool.removeTx txid).mapTx[query]? = if query = txid then none else pool.mapTx[query]? := by
  unfold removeTx
  cases hentry : pool.mapTx[txid]? with
  | none =>
    by_cases hsame : query = txid
    · rw [if_pos hsame, hsame]
      exact hentry
    · rw [if_neg hsame]
  | some entry => exact orderedMap.lookup_erase ..

theorem mapTx_foldl_removeTx (pool : CTxMemPool) (ids : List UInt256) (query : UInt256) :
    (ids.foldl removeTx pool).mapTx[query]? = if query ∈ ids then none else pool.mapTx[query]? := by
  induction ids generalizing pool with
  | nil => simp
  | cons txid rest ih =>
    rw [List.foldl_cons, ih, mapTx_removeTx]
    by_cases hrest : query ∈ rest
    · rw [if_pos hrest, if_pos (List.mem_cons_of_mem _ hrest)]
    · rw [if_neg hrest]
      by_cases hsame : query = txid
      · rw [if_pos hsame, if_pos (hsame ▸ List.mem_cons_self)]
      · rw [if_neg hsame, if_neg (List.not_mem_cons_of_ne_of_not_mem hsame hrest)]

theorem isSpent_eq_false_iff {tx : CTransaction} {view : CCoinsView} {height : Int} :
    isSpent tx view height = false ↔
      ∀ i ∈ tx.vin, ∃ coin, view.getCoin i.prevout = some coin ∧ coin.isSpendable height = true := by
  rw [isSpent, List.any_eq_false]
  refine forall₂_congr fun i _ => ?_
  cases view.getCoin i.prevout with
  | none => simp
  | some coin => simp

/-- `RemoveSpent` keeps exactly the transactions whose inputs are all there and mature. -/
theorem mapTx_removeSpent (pool : CTxMemPool) (view : CCoinsView) (height : Int) {txid : UInt256}
    {entry : CTxMemPoolEntry} :
    (pool.removeSpent view height).2.mapTx[txid]? = some entry ↔
      pool.mapTx[txid]? = some entry ∧ isSpent entry.tx view height = false := by
  have hremoved : txid ∈ (pool.mapTx.toList.filter fun kv => isSpent kv.2.tx view height).map Prod.fst ↔
      ∃ found, pool.mapTx[txid]? = some found ∧ isSpent found.tx view height = true := by
    simp only [List.mem_map, List.mem_filter, Prod.exists, Std.ExtTreeMap.mem_toList_iff_getElem?_eq_some,
      exists_and_right, exists_eq_right]
  rw [removeSpent, mapTx_foldl_removeTx]
  constructor
  · intro hentry
    split at hentry
    · cases hentry
    next hkept =>
      refine ⟨hentry, ?_⟩
      rw [← Bool.not_eq_true]
      exact fun hspent => hkept (hremoved.mpr ⟨entry, hentry, hspent⟩)
  · intro ⟨hentry, hunspent⟩
    rw [if_neg, hentry]
    intro hspent
    obtain ⟨found, hfound, hspent⟩ := hremoved.mp hspent
    rw [hentry] at hfound
    cases hfound
    rw [hunspent] at hspent
    cases hspent

end CTxMemPool

end cdx
