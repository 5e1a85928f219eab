import Cdx.Blockchain.Genesis
import Cdx.Crypto.Sha256
import Cdx.Lib.Transition
import Cdx.Mempool.Coherent

namespace cdx

/-- What C++ leaves open about memory that has been given back: the value that is read
    through a reference to the id in the node of `out`, when the node held `txid` and
    has been erased. -/
class Heap where
  freed (out : COutPoint) (txid : UInt256) : UInt256

namespace CTxMemPool

section Operations

variable [Heap]

/-- The loop of `RemoveTx` when its argument refers to the id in the node of `ref`: after
    that node is erased, the comparisons read `Heap.freed`. -/
def erasePrevOuts (ref : COutPoint) (txid : UInt256) :
    List CTxIn → UInt256 → Std.ExtTreeMap COutPoint UInt256 → Std.ExtTreeMap COutPoint UInt256
  | [], _, spent => spent
  | i :: rest, current, spent =>
    if spent[i.prevout]? = some current then
      erasePrevOuts ref txid rest (if i.prevout = ref then Heap.freed ref txid else current) (spent.erase i.prevout)
    else erasePrevOuts ref txid rest current spent

/-- `RemoveTx(it->second)`, where `it` is the node of `ref` in `mapPrevOut` and holds `txid`. -/
def removeTxAt (pool : CTxMemPool) (ref : COutPoint) (txid : UInt256) : CTxMemPool :=
  match pool.mapTx[txid]? with
  | none => pool
  | some entry => {
      mapTx := pool.mapTx.erase txid
      mapPrevOut := erasePrevOuts ref txid entry.tx.vin txid pool.mapPrevOut }

/-- One round of the loop of `RemoveConflicts`. -/
def removeConflict (pool : CTxMemPool) (i : CTxIn) : CTxMemPool :=
  match pool.mapPrevOut[i.prevout]? with
  | none => pool
  | some txid => pool.removeTxAt i.prevout txid

def removeConflicts (pool : CTxMemPool) (tx : CTransaction) : CTxMemPool := tx.vin.foldl removeConflict pool

def clear (_ : CTxMemPool) : CTxMemPool := {}

end Operations

section Erasing

variable [Heap]

/-- Before the loop meets the node of its argument it is the loop of `RemoveTx` proper. -/
theorem erasePrevOuts_append {ref : COutPoint} {txid : UInt256} {before : List CTxIn}
    (hbefore : ref ∉ before.map CTxIn.prevout) (rest : List CTxIn) (current : UInt256)
    (spent : Std.ExtTreeMap COutPoint UInt256) :
    erasePrevOuts ref txid (before ++ rest) current spent =
      erasePrevOuts ref txid rest current (before.foldl
        (fun spent i => if spent[i.prevout]? = some current then spent.erase i.prevout else spent) spent) := by
  induction before generalizing spent with
  | nil => rfl
  | cons i before ih =>
    rw [List.map_cons, List.mem_cons, not_or] at hbefore
    rw [List.cons_append, erasePrevOuts, List.foldl_cons]
    split
    · rw [if_neg (Ne.symm hbefore.1), ih hbefore.2]
    · rw [ih hbefore.2]

theorem erasePrevOuts_of_not_mem {ref : COutPoint} {txid : UInt256} {ins : List CTxIn}
    (hins : ref ∉ ins.map CTxIn.prevout) (current : UInt256) (spent : Std.ExtTreeMap COutPoint UInt256) :
    erasePrevOuts ref txid ins current spent = ins.foldl
      (fun spent i => if spent[i.prevout]? = some current then spent.erase i.prevout else spent) spent := by
  have happend : erasePrevOuts ref txid (ins ++ []) current spent = _ := erasePrevOuts_append hins [] current spent
  rwa [List.append_nil] at happend

/-- As long as the memory of the erased node keeps its content, nothing differs from `RemoveTx` proper. -/
theorem erasePrevOuts_of_kept {ref : COutPoint} {txid : UInt256} (hkept : Heap.freed ref txid = txid) (ins : List CTxIn)
    (spent : Std.ExtTreeMap COutPoint UInt256) :
    erasePrevOuts ref txid ins txid spent = ins.foldl
      (fun spent i => if spent[i.prevout]? = some txid then spent.erase i.prevout else spent) spent := by
  induction ins generalizing spent with
  | nil => rfl
  | cons i rest ih =>
    rw [erasePrevOuts, List.foldl_cons, hkept, ite_self]
    split <;> exact ih _

theorem erasePrevOuts_frame {ref out : COutPoint} {txid : UInt256} {ins : List CTxIn} (hout : out ∉ ins.map CTxIn.prevout)
    (current : UInt256) (spent : Std.ExtTreeMap COutPoint UInt256) :
    (erasePrevOuts ref txid ins current spent)[out]? = spent[out]? := by
  induction ins generalizing spent current with
  | nil => rfl
  | cons i rest ih =>
    rw [List.map_cons, List.mem_cons, not_or] at hout
    rw [erasePrevOuts]
    split
    · rw [ih hout.2, orderedMap.lookup_erase, if_neg hout.1]
    · exact ih hout.2 _ _

/-- An input behind the erased node stays recorded if the memory does not hold the id any more. -/
theorem lookup_erasePrevOuts_behind {ref : COutPoint} {txid : UInt256} (hlost : Heap.freed ref txid ≠ txid)
    {before after : List CTxIn} {i : CTxIn} (hi : i.prevout = ref)
    (hnodup : ((before ++ i :: after).map CTxIn.prevout).Nodup) {spent : Std.ExtTreeMap COutPoint UInt256}
    (href : spent[ref]? = some txid) {out : COutPoint} (hout : out ∈ after.map CTxIn.prevout)
    (hspent : spent[out]? = some txid) :
    (erasePrevOuts ref txid (before ++ i :: after) txid spent)[out]? = some txid := by
  subst hi
  rw [List.map_append, List.map_cons, List.nodup_middle, List.nodup_cons, List.nodup_append', List.mem_append,
    not_or] at hnodup
  obtain ⟨⟨hbefore, hafter⟩, -, -, hdisjoint⟩ := hnodup
  have hne : out ≠ i.prevout := by
    rintro rfl
    exact hafter hout
  have hearlier : ∀ query, query ∉ before.map CTxIn.prevout → spent[query]? = some txid → (before.foldl
      (fun spent i => if spent[i.prevout]? = some txid then spent.erase i.prevout else spent) spent)[query]? = some txid := by
    intro query hquery hfound
    rw [lookup_erasePrevOuts, if_neg (fun h => hquery h.1)]
    exact hfound
  have hstill := hearlier out (fun h => hdisjoint h hout) hspent
  rw [erasePrevOuts_append hbefore, erasePrevOuts, if_pos (hearlier i.prevout hbefore href), if_pos rfl,
    erasePrevOuts_of_not_mem hafter, lookup_erasePrevOuts, orderedMap.lookup_erase, if_neg hne, hstill, if_neg]
  rintro ⟨-, hfreed⟩
  exact hlost (Option.some.inj hfreed).symm

end Erasing

section Conflicts

variable [Heap]

/-- `RemoveTx` may be given the id in the node of `ref`: the node is that of the last input
    that it erases, or its memory still reads as the id. -/
def SafeReference (ref : COutPoint) (txid : UInt256) (tx : CTransaction) : Prop :=
  (tx.vin.map CTxIn.prevout).getLast? = some ref ∨ Heap.freed ref txid = txid

theorem removeTxAt_of_safe {pool : CTxMemPool} {ref : COutPoint} {txid : UInt256} {entry : CTxMemPoolEntry}
    (hentry : pool.mapTx[txid]? = some entry) (hnodup : (entry.tx.vin.map CTxIn.prevout).Nodup)
    (hsafe : SafeReference ref txid entry.tx) : pool.removeTxAt ref txid = pool.removeTx txid := by
  rw [removeTxAt, removeTx, hentry]
  simp only [mk.injEq, true_and]
  rcases hsafe with hlast | hkept
  · rw [List.getLast?_map, Option.map_eq_some_iff] at hlast
    obtain ⟨i, hlast, rfl⟩ := hlast
    obtain ⟨before, hvin⟩ := List.getLast?_eq_some_iff.mp hlast
    rw [hvin, List.map_append, List.nodup_append'] at hnodup
    have hbefore : i.prevout ∉ before.map CTxIn.prevout := fun h => hnodup.2.2 h (List.mem_singleton_self _)
    rw [hvin, erasePrevOuts_append hbefore, List.foldl_append, List.foldl_cons, erasePrevOuts]
    split <;> rfl
  · exact erasePrevOuts_of_kept hkept _ _

theorem mapTx_removeTxAt (pool : CTxMemPool) (ref : COutPoint) (txid query : UInt256) :
    (pool.removeTxAt ref txid).mapTx[query]? = if query = txid then none else pool.mapTx[query]? := by
  rw [← mapTx_removeTx]
  unfold removeTxAt removeTx
  cases pool.mapTx[txid]? <;> rfl

/-- Every outpoint that a transaction of the pool spends is recorded for it. -/
def Recorded (pool : CTxMemPool) : Prop :=
  ∀ (txid : UInt256) (entry : CTxMemPoolEntry), pool.mapTx[txid]? = some entry →
    ∀ out ∈ entry.tx.vin.map CTxIn.prevout, pool.mapPrevOut[out]? = some txid

theorem Recorded.removeTxAt {pool : CTxMemPool} (hpool : Recorded pool) (ref : COutPoint) (txid : UInt256) :
    Recorded (pool.removeTxAt ref txid) := by
  intro query entry hentry out hout
  rw [mapTx_removeTxAt] at hentry
  split at hentry
  · cases hentry
  next hne =>
    have hrecord := hpool query entry hentry out hout
    unfold CTxMemPool.removeTxAt
    cases hremoved : pool.mapTx[txid]? with
    | none => exact hrecord
    | some removed =>
      simp only
      rw [erasePrevOuts_frame _ txid pool.mapPrevOut, hrecord]
      intro hshared
      exact hne (Option.some.inj (hrecord.symm.trans (hpool txid removed hremoved out hshared)))

/-- An outpoint is recorded for a transaction that the pool does not hold, and no transaction of the pool spends it. -/
def Haunted (pool : CTxMemPool) : Prop :=
  ∃ (out : COutPoint) (txid : UInt256), pool.mapPrevOut[out]? = some txid ∧ pool.mapTx[txid]? = none ∧
    ∀ (query : UInt256) (entry : CTxMemPoolEntry), pool.mapTx[query]? = some entry → out ∉ entry.tx.vin.map CTxIn.prevout

theorem Haunted.removeConflict {pool : CTxMemPool} (hpool : Haunted pool) (i : CTxIn) :
    Haunted (pool.removeConflict i) := by
  obtain ⟨out, ghost, hrecord, habsent, hunspent⟩ := hpool
  unfold CTxMemPool.removeConflict
  split
  · exact ⟨out, ghost, hrecord, habsent, hunspent⟩
  next txid _ =>
    refine ⟨out, ghost, ?_, ?_, ?_⟩
    · unfold removeTxAt
      cases hremoved : pool.mapTx[txid]? with
      | none => exact hrecord
      | some removed =>
        simp only
        rw [erasePrevOuts_frame (hunspent txid removed hremoved) txid pool.mapPrevOut]
        exact hrecord
    · rw [mapTx_removeTxAt, habsent, ite_self]
    · intro query entry hentry
      rw [mapTx_removeTxAt] at hentry
      split at hentry
      · cases hentry
      · exact hunspent query entry hentry

theorem Haunted.foldl_removeConflict {pool : CTxMemPool} (hpool : Haunted pool) (ins : List CTxIn) :
    Haunted (ins.foldl CTxMemPool.removeConflict pool) := by
  induction ins generalizing pool with
  | nil => exact hpool
  | cons i rest ih => exact ih (hpool.removeConflict i)

variable [Crypto]

omit [Heap] in
theorem Coherent.recorded {pool : CTxMemPool} (hpool : Coherent pool) : Recorded pool :=
  fun txid entry hentry out hout => (hpool.spent out txid).mpr ⟨entry, hentry, hout⟩

omit [Heap] in
theorem Haunted.not_coherent {pool : CTxMemPool} (hpool : Haunted pool) : ¬ Coherent pool := by
  intro hcoherent
  obtain ⟨out, txid, hrecord, habsent, -⟩ := hpool
  obtain ⟨entry, hentry, -⟩ := (hcoherent.spent out txid).mp hrecord
  rw [habsent] at hentry
  cases hentry

/-- With an unsafe reference `RemoveTx` leaves an input of the transaction behind. -/
theorem Coherent.haunted_removeTxAt {pool : CTxMemPool} (hpool : Coherent pool) {ref : COutPoint} {txid : UInt256}
    {entry : CTxMemPoolEntry} (hentry : pool.mapTx[txid]? = some entry)
    (hnodup : (entry.tx.vin.map CTxIn.prevout).Nodup) (href : ref ∈ entry.tx.vin.map CTxIn.prevout)
    (hrisky : ¬ SafeReference ref txid entry.tx) : Haunted (pool.removeTxAt ref txid) := by
  rw [SafeReference, not_or] at hrisky
  obtain ⟨i, hi, hiref⟩ := List.mem_map.mp href
  obtain ⟨before, after, hvin⟩ := List.append_of_mem hi
  have hafter : after ≠ [] := by
    rintro rfl
    apply hrisky.1
    rw [hvin, List.map_append, List.map_singleton, List.getLast?_concat, hiref]
  obtain ⟨j, hj⟩ := List.exists_mem_of_ne_nil after hafter
  have hjafter : j.prevout ∈ after.map CTxIn.prevout := List.mem_map_of_mem hj
  have hjmem : j.prevout ∈ entry.tx.vin.map CTxIn.prevout := by
    rw [hvin]
    exact List.mem_map_of_mem (by simp [hj])
  have hrecord := hpool.recorded txid entry hentry
  refine ⟨j.prevout, txid, ?_, ?_, ?_⟩
  · rw [removeTxAt, hentry]
    simp only [hvin]
    rw [hvin] at hnodup
    exact lookup_erasePrevOuts_behind hrisky.2 hiref hnodup (hrecord ref href) hjafter (hrecord j.prevout hjmem)
  · rw [mapTx_removeTxAt, if_pos rfl]
  · intro query other hother hshared
    rw [mapTx_removeTxAt] at hother
    split at hother
    · cases hother
    next hne => exact hne (hpool.disjoint hother hentry hshared hjmem)

/-- The transactions of the pool spend no outpoint twice. -/
def DistinctInputs (pool : CTxMemPool) : Prop :=
  ∀ (txid : UInt256) (entry : CTxMemPoolEntry), pool.mapTx[txid]? = some entry →
    (entry.tx.vin.map CTxIn.prevout).Nodup

/-- The first of the inputs that the transaction spends too. -/
def firstShared (ins : List CTxIn) (tx : CTransaction) : Option COutPoint :=
  (ins.map CTxIn.prevout).find? fun out => out ∈ tx.vin.map CTxIn.prevout

/-- For every transaction of the pool that conflicts with the inputs, the reference that
    `RemoveTx` gets is safe. -/
def SafeConflicts (pool : CTxMemPool) (ins : List CTxIn) : Prop :=
  ∀ (txid : UInt256) (entry : CTxMemPoolEntry) (ref : COutPoint), pool.mapTx[txid]? = some entry →
    firstShared ins entry.tx = some ref → SafeReference ref txid entry.tx

omit [Crypto] in
theorem mapTx_removeConflict {pool : CTxMemPool} {i : CTxIn} {txid : UInt256} {entry : CTxMemPoolEntry}
    (hentry : (pool.removeConflict i).mapTx[txid]? = some entry) : pool.mapTx[txid]? = some entry := by
  unfold removeConflict at hentry
  split at hentry
  · exact hentry
  · rw [mapTx_removeTxAt] at hentry
    split at hentry
    · cases hentry
    · exact hentry

omit [Crypto] in
theorem mapTx_foldl_removeConflict {pool : CTxMemPool} {ins : List CTxIn} {txid : UInt256} {entry : CTxMemPoolEntry}
    (hentry : (ins.foldl removeConflict pool).mapTx[txid]? = some entry) : pool.mapTx[txid]? = some entry := by
  induction ins generalizing pool with
  | nil => exact hentry
  | cons i rest ih => exact mapTx_removeConflict (ih hentry)

omit [Crypto] in
/-- One round removes the transaction that spends its outpoint. -/
theorem Recorded.removeConflict {pool : CTxMemPool} (hpool : Recorded pool) (i : CTxIn) :
    Recorded (pool.removeConflict i) ∧ ∀ (txid : UInt256) (entry : CTxMemPoolEntry),
      (pool.removeConflict i).mapTx[txid]? = some entry → i.prevout ∉ entry.tx.vin.map CTxIn.prevout := by
  unfold CTxMemPool.removeConflict
  cases hrecord : pool.mapPrevOut[i.prevout]? with
  | none =>
    refine ⟨hpool, ?_⟩
    intro txid entry hentry hspends
    rw [hpool txid entry hentry _ hspends] at hrecord
    cases hrecord
  | some spender =>
    refine ⟨hpool.removeTxAt i.prevout spender, ?_⟩
    intro txid entry hentry hspends
    simp only [mapTx_removeTxAt] at hentry
    split at hentry
    · cases hentry
    next hne =>
      rw [hpool txid entry hentry _ hspends] at hrecord
      exact hne (Option.some.inj hrecord)

/-- No transaction of the pool spends one of the outpoints. -/
def ClearOf (pool : CTxMemPool) (ins : List CTxIn) : Prop :=
  ∀ i ∈ ins, ∀ (txid : UInt256) (entry : CTxMemPoolEntry), pool.mapTx[txid]? = some entry →
    i.prevout ∉ entry.tx.vin.map CTxIn.prevout

omit [Crypto] in
theorem Recorded.clearOf {pool : CTxMemPool} (hpool : Recorded pool) (ins : List CTxIn) :
    ClearOf (ins.foldl CTxMemPool.removeConflict pool) ins := by
  induction ins generalizing pool with
  | nil =>
    intro i hi
    cases hi
  | cons first rest ih =>
    obtain ⟨hnext, hclear⟩ := hpool.removeConflict first
    intro i hi txid entry hentry
    rcases List.mem_cons.mp hi with rfl | hrest
    · exact hclear txid entry (mapTx_foldl_removeConflict hentry)
    · exact ih hnext i hrest txid entry hentry

omit [Crypto] [Heap] in
theorem firstShared_cons (i : CTxIn) (rest : List CTxIn) (tx : CTransaction) :
    firstShared (i :: rest) tx =
      if i.prevout ∈ tx.vin.map CTxIn.prevout then some i.prevout else firstShared rest tx := by
  rw [firstShared, List.map_cons, List.find?_cons]
  by_cases hshared : i.prevout ∈ tx.vin.map CTxIn.prevout
  · rw [if_pos hshared, decide_eq_true hshared]
  · rw [if_neg hshared, decide_eq_false hshared]
    rfl

omit [Crypto] in
/-- An outpoint that nothing in the pool spends does not matter for the later ones. -/
theorem safeConflicts_cons_of_unspent {pool : CTxMemPool} {i : CTxIn}
    (hunspent : ∀ (txid : UInt256) (entry : CTxMemPoolEntry), pool.mapTx[txid]? = some entry →
      i.prevout ∉ entry.tx.vin.map CTxIn.prevout) (rest : List CTxIn) :
    SafeConflicts pool (i :: rest) ↔ SafeConflicts pool rest := by
  refine forall₃_congr fun txid entry ref => imp_congr_right fun hentry => ?_
  rw [firstShared_cons, if_neg (hunspent txid entry hentry)]

/-- After the conflict at the first outpoint is removed, the others are as before. -/
theorem Coherent.safeConflicts_cons {pool : CTxMemPool} (hpool : Coherent pool) {i : CTxIn} {txid : UInt256}
    {entry : CTxMemPoolEntry} (hentry : pool.mapTx[txid]? = some entry)
    (hspends : i.prevout ∈ entry.tx.vin.map CTxIn.prevout) (rest : List CTxIn) :
    SafeConflicts pool (i :: rest) ↔
      SafeReference i.prevout txid entry.tx ∧ SafeConflicts (pool.removeTx txid) rest := by
  constructor
  · intro hsafe
    refine ⟨hsafe txid entry i.prevout hentry (by rw [firstShared_cons, if_pos hspends]), ?_⟩
    intro query other ref hother hfirst
    rw [mapTx_removeTx] at hother
    split at hother
    · cases hother
    next hne =>
      apply hsafe query other ref hother
      rw [firstShared_cons, if_neg, hfirst]
      exact fun hshared => hne (hpool.disjoint hother hentry hshared hspends)
  · rintro ⟨hfirstSafe, hrestSafe⟩ query other ref hother hfirst
    rw [firstShared_cons] at hfirst
    by_cases hsame : query = txid
    · subst hsame
      rw [hentry] at hother
      cases hother
      rw [if_pos hspends] at hfirst
      cases hfirst
      exact hfirstSafe
    · rw [if_neg (fun hshared => hsame (hpool.disjoint hother hentry hshared hspends))] at hfirst
      exact hrestSafe query other ref (by rw [mapTx_removeTx, if_neg hsame, hother]) hfirst

omit [Heap] [Crypto] in
theorem DistinctInputs.removeTx {pool : CTxMemPool} (hpool : DistinctInputs pool) (txid : UInt256) :
    DistinctInputs (pool.removeTx txid) := by
  intro query entry hentry
  rw [mapTx_removeTx] at hentry
  split at hentry
  · cases hentry
  · exact hpool query entry hentry

/-- The maps still agree after `RemoveConflicts` exactly when every reference it passes
    to `RemoveTx` was safe. -/
theorem Coherent.foldl_removeConflict_iff {pool : CTxMemPool} (hpool : Coherent pool) (hdistinct : DistinctInputs pool)
    (ins : List CTxIn) : Coherent (ins.foldl CTxMemPool.removeConflict pool) ↔ SafeConflicts pool ins := by
  induction ins generalizing pool with
  | nil =>
    refine ⟨fun _ txid entry ref _ hfirst => ?_, fun _ => hpool⟩
    cases hfirst
  | cons i rest ih =>
    rw [List.foldl_cons]
    cases hrecord : pool.mapPrevOut[i.prevout]? with
    | none =>
      have hsame : pool.removeConflict i = pool := by rw [CTxMemPool.removeConflict, hrecord]
      have hunspent : ∀ (txid : UInt256) (entry : CTxMemPoolEntry), pool.mapTx[txid]? = some entry →
          i.prevout ∉ entry.tx.vin.map CTxIn.prevout := by
        intro txid entry hentry hspends
        rw [hpool.recorded txid entry hentry _ hspends] at hrecord
        cases hrecord
      rw [hsame, ih hpool hdistinct, safeConflicts_cons_of_unspent hunspent]
    | some txid =>
      obtain ⟨entry, hentry, hspends⟩ := (hpool.spent i.prevout txid).mp hrecord
      have hstep : pool.removeConflict i = pool.removeTxAt i.prevout txid := by rw [CTxMemPool.removeConflict, hrecord]
      rw [hstep, hpool.safeConflicts_cons hentry hspends]
      by_cases hsafe : SafeReference i.prevout txid entry.tx
      · rw [removeTxAt_of_safe hentry (hdistinct txid entry hentry) hsafe,
          ih (hpool.removeTx txid) (hdistinct.removeTx txid)]
        exact (and_iff_right hsafe).symm
      · -- The record that stays behind is still there at the end.
        have hhaunted := hpool.haunted_removeTxAt hentry (hdistinct txid entry hentry) hspends hsafe
        exact ⟨fun hcoherent => absurd hcoherent (hhaunted.foldl_removeConflict rest).not_coherent,
          fun hall => absurd hall.1 hsafe⟩

end Conflicts

section Runs

/-- The operations on a pool. -/
inductive Operation where
  | admission (tx : CTransaction) (view : CCoinsView) (height now : Int)
  | removeTx (txid : UInt256)
  | removeConflicts (tx : CTransaction)
  | removeSpent (view : CCoinsView) (height : Int)
  | clear

variable [Crypto] [Heap]

/-- The pool after an operation. A transaction that `CheckTx` refuses is not added; a sum
    that overflows in `CheckTx` has no result. -/
def perform (pool : CTxMemPool) : Operation → Option CTxMemPool
  | .admission tx view height now =>
    match pool.checkTx tx view height with
    | .ok fee => some (pool.addUnchecked tx fee height now).2
    | .error (.error _) => some pool
    | .error (.overflow _) => none
  | .removeTx txid => some (pool.removeTx txid)
  | .removeConflicts tx => some (pool.removeConflicts tx)
  | .removeSpent view height => some (pool.removeSpent view height).2
  | .clear => some pool.clear

/-- An admission adds a transaction that passed `CheckTx`, or leaves the pool as it is. -/
theorem perform_admission {pool pool' : CTxMemPool} {tx : CTransaction} {view : CCoinsView} {height now : Int}
    (hperform : pool.perform (.admission tx view height now) = some pool') :
    pool' = pool ∨ ∃ fee, pool.checkTx tx view height = .ok fee ∧ pool' = (pool.addUnchecked tx fee height now).2 := by
  simp only [perform] at hperform
  split at hperform
  next fee hcheck =>
    cases hperform
    exact Or.inr ⟨fee, hcheck, rfl⟩
  · cases hperform
    exact Or.inl rfl
  · cases hperform

/-- A transaction that is in the pool after an operation was there before, or is the one that it admitted. -/
theorem mapTx_perform {pool pool' : CTxMemPool} {op : Operation} (hperform : pool.perform op = some pool')
    {txid : UInt256} {entry : CTxMemPoolEntry} (hentry : pool'.mapTx[txid]? = some entry) :
    pool.mapTx[txid]? = some entry ∨
      checkTransaction entry.tx = .ok () ∧ entry.sizeBytes = (serializeTransaction entry.tx).length := by
  cases op with
  | admission tx view height now =>
    rcases perform_admission hperform with rfl | ⟨fee, hcheck, rfl⟩
    · exact Or.inl hentry
    · rcases mapTx_addUnchecked hentry with hold | ⟨-, rfl, -, hsize⟩
      · exact Or.inl hold
      · exact Or.inr ⟨(checkTx_eq_ok hcheck).1, hsize⟩
  | removeTx id =>
    cases hperform
    rw [mapTx_removeTx] at hentry
    split at hentry
    · cases hentry
    · exact Or.inl hentry
  | removeConflicts tx =>
    cases hperform
    exact Or.inl (mapTx_foldl_removeConflict hentry)
  | removeSpent view height =>
    cases hperform
    exact Or.inl ((mapTx_removeSpent pool view height).mp hentry).1
  | clear =>
    cases hperform
    simp [clear] at hentry

theorem DistinctInputs.perform {pool pool' : CTxMemPool} (hpool : DistinctInputs pool) {op : Operation}
    (hperform : pool.perform op = some pool') : DistinctInputs pool' := by
  intro txid entry hentry
  rcases mapTx_perform hperform hentry with hold | ⟨htx, -⟩
  · exact hpool txid entry hold
  · exact (wellFormed_of_checkTransaction htx).inputs_nodup

/-- The size that an entry records is that of its transaction. -/
def SizesRecorded (pool : CTxMemPool) : Prop :=
  ∀ (txid : UInt256) (entry : CTxMemPoolEntry), pool.mapTx[txid]? = some entry →
    entry.sizeBytes = (serializeTransaction entry.tx).length

theorem SizesRecorded.perform {pool pool' : CTxMemPool} (hpool : SizesRecorded pool) {op : Operation}
    (hperform : pool.perform op = some pool') : SizesRecorded pool' := by
  intro txid entry hentry
  rcases mapTx_perform hperform hentry with hold | ⟨-, hsize⟩
  · exact hpool txid entry hold
  · exact hsize

theorem run_sizesRecorded {ops : List Operation} {final : CTxMemPool}
    (hrun : transition.run perform {} ops = some final) : SizesRecorded final := by
  have hempty : SizesRecorded {} := by
    intro txid entry hentry
    simp at hentry
  exact transition.run_invariant (fun _ _ _ _ hpool hperform => SizesRecorded.perform hpool hperform) hempty hrun

/-- Of all operations only `RemoveConflicts` can tear the two maps apart. -/
theorem Coherent.perform_iff {pool pool' : CTxMemPool} (hpool : Coherent pool) (hdistinct : DistinctInputs pool)
    {op : Operation} (hperform : pool.perform op = some pool') :
    Coherent pool' ↔ ∀ tx, op = .removeConflicts tx → SafeConflicts pool tx.vin := by
  cases op with
  | admission tx view height now =>
    refine iff_of_true ?_ (fun _ hop => by cases hop)
    rcases perform_admission hperform with rfl | ⟨fee, hcheck, rfl⟩
    · exact hpool
    · exact hpool.addUnchecked (checkTx_eq_ok hcheck).2.1 fee height now
  | removeTx txid =>
    cases hperform
    exact iff_of_true (hpool.removeTx txid) (fun _ hop => by cases hop)
  | removeConflicts tx =>
    cases hperform
    rw [CTxMemPool.removeConflicts, hpool.foldl_removeConflict_iff hdistinct]
    refine ⟨?_, fun hsafe => hsafe tx rfl⟩
    intro hsafe other hop
    cases hop
    exact hsafe
  | removeSpent view height =>
    cases hperform
    exact iff_of_true (hpool.removeSpent view height) (fun _ hop => by cases hop)
  | clear =>
    cases hperform
    exact iff_of_true coherent_empty (fun _ hop => by cases hop)

/-- `mapPrevOut` sends the outpoints that transactions of the pool spend to their ids and
    has nothing else, no outpoint is spent twice, and every transaction is under its id. -/
structure Consistent (pool : CTxMemPool) : Prop where
  spent : ∀ (out : COutPoint) (txid : UInt256), pool.mapPrevOut[out]? = some txid ↔
    ∃ entry : CTxMemPoolEntry, pool.mapTx[txid]? = some entry ∧ out ∈ entry.tx.vin.map CTxIn.prevout
  disjoint : ∀ (txid txid' : UInt256) (entry entry' : CTxMemPoolEntry), pool.mapTx[txid]? = some entry →
    pool.mapTx[txid']? = some entry' → txid ≠ txid' →
      ∀ out ∈ entry.tx.vin.map CTxIn.prevout, out ∉ entry'.tx.vin.map CTxIn.prevout
  ids : ∀ (txid : UInt256) (entry : CTxMemPoolEntry), pool.mapTx[txid]? = some entry → getTxID entry.tx = txid

omit [Heap] in
theorem consistent_iff_coherent (pool : CTxMemPool) : Consistent pool ↔ Coherent pool := by
  refine ⟨fun hpool => ⟨hpool.ids, hpool.spent⟩, fun hpool => ⟨hpool.spent, ?_, hpool.ids⟩⟩
  intro txid txid' entry entry' hentry hentry' hne out hout hout'
  exact hne (hpool.disjoint hentry hentry' hout hout')

/-- Over a whole run the pool stays consistent, and free of conflicts after each
    `RemoveConflicts`, exactly when every `RemoveConflicts` of the run passes only safe
    references. -/
theorem run_consistent_iff {ops : List Operation} {final : CTxMemPool}
    (hrun : transition.run perform {} ops = some final) :
    ((∀ pool, transition.Visits perform {} ops pool → Consistent pool) ∧
      ∀ pool tx, transition.Takes perform {} ops pool (.removeConflicts tx) →
        ClearOf (pool.removeConflicts tx) tx.vin) ↔
      ∀ pool tx, transition.Takes perform {} ops pool (.removeConflicts tx) → SafeConflicts pool tx.vin := by
  have hdistinct : DistinctInputs {} := by
    intro txid entry hentry
    simp at hentry
  have hiff : (∀ pool, transition.Visits perform {} ops pool → Coherent pool) ↔
      ∀ pool op, transition.Takes perform {} ops pool op →
        ∀ tx, op = .removeConflicts tx → SafeConflicts pool tx.vin :=
    transition.visits_iff_takes (I := DistinctInputs) (P := Coherent)
      (fun _ _ _ _ hpool _ hperform => hpool.perform hperform)
      (fun _ _ _ _ hpool hcoherent hperform => hcoherent.perform_iff hpool hperform) hdistinct coherent_empty hrun
  simp only [consistent_iff_coherent]
  constructor
  · rintro ⟨hcoherent, -⟩ pool tx htakes
    exact hiff.mp hcoherent pool _ htakes tx rfl
  · intro hsafe
    have hcoherent := hiff.mpr (by rintro pool _ htakes tx rfl; exact hsafe pool tx htakes)
    refine ⟨hcoherent, ?_⟩
    intro pool tx htakes
    exact (hcoherent pool (transition.visits_of_takes htakes)).recorded.clearOf tx.vin

end Runs

section

/-- Memory that is cleared when it is given back. -/
@[reducible]
def clearingHeap : Heap where
  freed _ _ := 0

/-- A coin that anyone may spend. -/
def freeCoin : CUTXO := { value := 1000, scriptPubKey := opTrue, height := 0, isCoinbase := false }

def firstOut : COutPoint := ⟨UInt256.ofWord 1, 0⟩

def secondOut : COutPoint := ⟨UInt256.ofWord 2, 0⟩

def twoCoins : CCoinsView := (CCoinsView.empty.addCoin firstOut freeCoin).addCoin secondOut freeCoin

/-- A transaction that spends the outpoints. -/
def spending (outs : List COutPoint) : CTransaction where
  vin := outs.map fun out => { prevout := out, scriptSig := opTrue }
  vout := [{ value := 500, scriptPubKey := opTrue }]

attribute [local instance] toolCrypto clearingHeap

/-- The conflict is at the last input of the transaction in the pool. -/
theorem run_consistent_lastInput : ∃ final, transition.run perform {}
      [.admission (spending [firstOut, secondOut]) twoCoins 1 0, .removeConflicts (spending [secondOut])] = some final ∧
    ∀ pool, transition.Visits perform {}
      [.admission (spending [firstOut, secondOut]) twoCoins 1 0, .removeConflicts (spending [secondOut])] pool →
      Consistent pool := by
  have hevaluated : (transition.run perform {}
      [.admission (spending [firstOut, secondOut]) twoCoins 1 0, .removeConflicts (spending [secondOut])]).isSome = true := by
    decide +kernel
  obtain ⟨final, hrun⟩ := Option.isSome_iff_exists.mp hevaluated
  refine ⟨final, hrun, ((run_consistent_iff hrun).mpr ?_).1⟩
  rintro pool tx (⟨-, hop⟩ | ⟨next, hnext, ⟨rfl, hop⟩ | ⟨_, -, htakes⟩⟩)
  · cases hop
  · cases hop
    intro txid entry ref hentry hfirst
    rcases perform_admission hnext with rfl | ⟨fee, -, rfl⟩
    · simp at hentry
    · rcases mapTx_addUnchecked hentry with hold | ⟨-, htx, -⟩
      · simp at hold
      · rw [htx] at hfirst ⊢
        refine Or.inl (Eq.trans ?_ hfirst)
        decide +kernel
  · cases htakes

/-- The conflict is at the first of two inputs: the second stays recorded for a
    transaction that has left the pool. -/
theorem consistent_fails_firstInput : ∃ final, transition.run perform {}
      [.admission (spending [firstOut, secondOut]) twoCoins 1 0, .removeConflicts (spending [firstOut])] = some final ∧
    ¬ Consistent final := by
  have hevaluated : (transition.run perform {}
      [.admission (spending [firstOut, secondOut]) twoCoins 1 0, .removeConflicts (spending [firstOut])]).map
        (fun pool => (pool.mapTx.isEmpty, pool.mapPrevOut[secondOut]?)) =
      some (true, some (getTxID (spending [firstOut, secondOut]))) := by
    decide +kernel
  obtain ⟨final, hrun, hfinal⟩ := Option.map_eq_some_iff.mp hevaluated
  simp only [Prod.mk.injEq] at hfinal
  refine ⟨final, hrun, ?_⟩
  intro hconsistent
  obtain ⟨entry, hentry, -⟩ := (hconsistent.spent _ _).mp hfinal.2
  rw [Std.ExtTreeMap.isEmpty_iff.mp hfinal.1] at hentry
  simp at hentry

end

end CTxMemPool

end cdx
