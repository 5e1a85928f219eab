import Cdx.Consensus.Built
import Cdx.Consensus.CoinOrigin
import Cdx.Mempool.Coherent
import Cdx.Storage.Blocks
import Cdx.Wallet.Address

namespace cdx

/-- How many of the first `n` bytes the trimming loop keeps: it drops zeros from the end, but not the last byte. -/
def minimalLength (le : Bytes) : Nat → Nat
  | n + 2 => if le[n + 1]? = some 0 then minimalLength le (n + 1) else n + 2
  | n => n

/-- The push of the height with which the script of a coinbase starts. A height is not
    negative, so a byte for the sign is never a ninth one. -/
def pushHeight (height : Int) : Bytes :=
  if height = 0 then [0x00]
  else
    let le := writeI64 height
    let trimmed := le.take (minimalLength le 8)
    let number := if trimmed.getLastD 0 &&& 0x80 ≠ 0 then trimmed ++ [0] else trimmed
    UInt8.ofNat number.length :: number

def minerData : Bytes := ascii "CDX Miner"

theorem length_pushHeight (height : Int) : 1 ≤ (pushHeight height).length ∧ (pushHeight height).length ≤ 10 := by
  unfold pushHeight
  split
  · simp
  · simp only [List.length_cons]
    have hle : (writeI64 height).length = 8 := codec.length_leEncode 8 _
    split
    · simp only [List.length_append, List.length_take, List.length_singleton, hle]
      omega
    · simp only [List.length_take, hle]
      omega

/-- The script of a coinbase: the height, room for an extra nonce and the name of the miner. -/
def minerScriptBytes (height : Int) : Bytes :=
  pushHeight height ++ ([0x04, 0x00, 0x00, 0x00, 0x00] ++ UInt8.ofNat minerData.length :: minerData)

theorem length_minerScriptBytes_eq (height : Int) :
    (minerScriptBytes height).length = (pushHeight height).length + 15 := by
  have hrest : ([0x04, 0x00, 0x00, 0x00, 0x00] ++ UInt8.ofNat minerData.length :: minerData : Bytes).length = 15 := by
    decide
  rw [minerScriptBytes, List.length_append, hrest]

theorem length_minerScriptBytes (height : Int) :
    2 ≤ (minerScriptBytes height).length ∧ (minerScriptBytes height).length ≤ 100 := by
  have hpush := length_pushHeight height
  rw [length_minerScriptBytes_eq]
  omega

def minerScript (height : Int) : Script where
  val := minerScriptBytes height
  property := lt_of_le_of_lt (length_minerScriptBytes height).2 (by decide)

section Template

variable [Crypto]

/-- The selection loop of `CreateCandidateBlock`: the transactions that pass `CheckTxInputs` over the
    view of the chain, up to 500, and the sum of their fees. -/
def selectTxs (view : CCoinsView) (height : Int) :
    List CTransaction → List CTransaction → Int → Except Reject (List CTransaction × Int)
  | [], txs, fees => .ok (txs, fees)
  | tx :: rest, txs, fees =>
    match checkTxInputs tx view height with
    | .ok fee => do
      let fees ← addI64 .fees fees fee
      let txs := txs ++ [tx]
      if txs.length ≥ 500 then .ok (txs, fees) else selectTxs view height rest txs fees
    | .error (.error _) => selectTxs view height rest txs fees
    | .error (.overflow sum) => .error (.overflow sum)

/-- The hash that the coinbase pays. An address of another network or no address at all only has
    the first byte of the array cleared. -/
def minerHash [Memory] (minerAddress : Bytes) (versionByte : UInt8) : Hash160 :=
  match decodeAddress minerAddress with
  | some (ver, hash160) =>
    if ver = versionByte then hash160 else ⟨hash160.val.set 0 0, by rw [List.length_set, hash160.property]⟩
  | none => ⟨(Memory.uninit 20).set 0 0, by rw [List.length_set, Memory.length_uninit]⟩

/-- The block of `CreateCandidateBlock` once its transactions are chosen. -/
def assembleBlock (height : Int) (bits timestamp : UInt32) (prevHash : UInt256) (hash160 : Hash160) (value : Int)
    (txs : List CTransaction) : CBlock :=
  let vtx := builtCoinbase (minerScript height) value (buildP2PKHScript hash160) :: txs
  { header := {
      prevBlockHash := prevHash
      merkleRoot := computeMerkleRootOfTxs vtx
      timestamp := timestamp
      bits := bits
      nonce := 0 }
    vtx := vtx }

/-- `CreateCandidateBlock`: the block and the fees it collects. -/
def createCandidateBlock [Memory] (height : Int) (bits timestamp : UInt32) (prevHash : UInt256) (mempool : CTxMemPool)
    (view : CCoinsView) (minerAddress : Bytes) (versionByte : UInt8) : Except Reject (CBlock × Int) := do
  let (txs, fees) ← selectTxs view height mempool.getTxs [] 0
  let value ← addI64 .subsidyPlusFees (getBlockSubsidy height) fees
  pure (assembleBlock height bits timestamp prevHash (minerHash minerAddress versionByte) value txs, fees)

end Template

section Selection

variable [Crypto]

/-- Transactions that can be connected one after another once each of them can be paid from the
    view: no two spend the same coin, and what they make agrees with what the view already holds. -/
structure Minable (view : CCoinsView) (txs : List CTransaction) : Prop where
  checked : ∀ tx ∈ txs, checkTransaction tx = .ok ()
  disjoint : txs.Pairwise fun a b => ∀ out ∈ a.vin.map CTxIn.prevout, out ∉ b.vin.map CTxIn.prevout
  agrees : ∀ tx ∈ txs, ∀ out txOut coin, tx.Creates out txOut → view.getCoin out = some coin →
    txOut.value = coin.value ∧ txOut.scriptPubKey = coin.scriptPubKey

theorem Minable.tail {view : CCoinsView} {tx : CTransaction} {rest : List CTransaction}
    (hminable : Minable view (tx :: rest)) : Minable view rest :=
  ⟨(List.forall_mem_cons.mp hminable.checked).2, (List.pairwise_cons.mp hminable.disjoint).2,
    (List.forall_mem_cons.mp hminable.agrees).2⟩

/-- A view pays out what `CheckTxInputs` has found in it. -/
theorem stillPays_self {tx : CTransaction} {view : CCoinsView} {height fee : Int}
    (hfee : checkTxInputs tx view height = .ok fee) {i : CTxIn} (hi : i ∈ tx.vin) :
    StillPays view view height i.prevout := by
  obtain ⟨-, hinputs, -, -⟩ := checkTxInputs_eq_ok hfee
  obtain ⟨k, hk⟩ := List.mem_iff_getElem?.mp hi
  obtain ⟨found, hfound, hspendable, -⟩ := hinputs k i hk
  intro coin hcoin
  rw [hfound, Option.some.injEq] at hcoin
  subst hcoin
  exact ⟨found, hfound, hspendable, rfl, rfl⟩

/-- A connected transaction leaves what it does not spend as good as it was. What it makes is never
    a coinbase coin, so it can be spent at once. -/
theorem StillPays.connected {tx : CTransaction} {view cur mid : CCoinsView} {height fees fees' : Int} {out : COutPoint}
    (hpays : StillPays view cur height out) (hconnected : ConnectedTx height tx cur fees mid fees')
    (hunspent : out ∉ tx.vin.map CTxIn.prevout)
    (hagrees : ∀ txOut coin, tx.Creates out txOut → view.getCoin out = some coin →
      txOut.value = coin.value ∧ txOut.scriptPubKey = coin.scriptPubKey) : StillPays view mid height out := by
  intro coin hcoin
  obtain ⟨txOut, hcreates, hmid⟩ | ⟨-, ⟨hspends, -⟩ | ⟨-, hmid⟩⟩ := hconnected.getCoin out
  · refine ⟨tx.coinOf txOut height, hmid, ?_, hagrees txOut coin hcreates hcoin⟩
    rw [CUTXO.isSpendable, CTransaction.coinOf, hconnected.notCoinBase]
    rfl
  · exact absurd hspends.2 hunspent
  · rw [hmid]
    exact hpays coin hcoin

/-- A transaction that could be paid from one view is connected to another that still pays for it. -/
theorem connectTx_of_stillPays {tx : CTransaction} {view cur : CCoinsView} {height fees fees' fee : Int}
    (htx : checkTransaction tx = .ok ()) (hfee : checkTxInputs tx view height = .ok fee)
    (hpays : ∀ i ∈ tx.vin, StillPays view cur height i.prevout) (hsum : addI64 .fees fees fee = .ok fees') :
    ∃ mid, connectTx height tx cur fees = .ok (mid, fees') := by
  have hcur := checkTxInputs_of_stillPays hfee hpays
  obtain ⟨-, hinputs, -, -⟩ := checkTxInputs_eq_ok hcur
  have hfound : ∀ i ∈ tx.vin, ∃ coin, cur.getCoin i.prevout = some coin := by
    intro i hi
    obtain ⟨k, hk⟩ := List.mem_iff_getElem?.mp hi
    obtain ⟨coin, hcoin, -, -⟩ := hinputs k i hk
    exact ⟨coin, hcoin⟩
  have hspent := spendInputs_of_found (wellFormed_of_checkTransaction htx).inputs_nodup hfound
  unfold connectTx
  rw [htx, bind_ok, hcur, bind_ok, hsum, bind_ok, hspent, bind_ok]
  exact ⟨_, rfl⟩

/-- What the selection loop takes from the pool, `CheckBlock` connects, and they agree on the fees. The
    loop looks at the view of the chain only; `cur` is what the transactions taken before have left of it. -/
theorem selectTxs_connected {view cur : CCoinsView} {height fees : Int} {pending picked : List CTransaction}
    (hview : view.InRange) (hcur : cur.InRange) (hlow : 0 ≤ fees) (hhigh : cur.totalValue + fees ≤ MAX_MONEY)
    (hminable : Minable view pending)
    (hpays : ∀ tx ∈ pending, ∀ fee, checkTxInputs tx view height = .ok fee →
      ∀ i ∈ tx.vin, StillPays view cur height i.prevout)
    (hcount : picked.length < 500) :
    ∃ more fees' mid, selectTxs view height pending picked fees = .ok (picked ++ more, fees') ∧
      connectTxs height more cur fees = .ok (mid, fees') ∧ (picked ++ more).length ≤ 500 := by
  induction pending generalizing cur fees picked with
  | nil =>
    refine ⟨[], fees, cur, ?_, rfl, ?_⟩
    · rw [List.append_nil]
      rfl
    · rw [List.append_nil]
      omega
  | cons tx rest ih =>
    have htx := hminable.checked tx List.mem_cons_self
    unfold selectTxs
    cases hfee : checkTxInputs tx view height with
    | error reject =>
      cases reject with
      | error message =>
        exact ih hcur hlow hhigh hminable.tail (fun tx' htx' => hpays tx' (List.mem_cons_of_mem _ htx')) hcount
      | overflow sum =>
        exact absurd hfee (checkTxInputs_noOverflow (wellFormed_of_checkTransaction htx) hview height sum)
    | ok fee =>
      have hself := hpays tx List.mem_cons_self fee hfee
      have hsum : addI64 .fees fees fee = .ok (fees + fee) :=
        addFee_of_totalValue (wellFormed_of_checkTransaction htx) (checkTxInputs_of_stillPays hfee hself) hcur hlow hhigh
      obtain ⟨mid, hconnect⟩ := connectTx_of_stillPays htx hfee hself hsum
      have hconnected := connectTx_eq_ok hconnect
      obtain ⟨hmid, hfees, htotal⟩ := hconnected.supply hcur
      simp only [hsum, bind_ok]
      split
      next hfull =>
        refine ⟨[tx], fees + fee, mid, rfl, ?_, ?_⟩
        · rw [connectTxs, hconnect]
          rfl
        · rw [List.length_append, List.length_singleton]
          omega
      next hroom =>
        have hrest : ∀ tx' ∈ rest, ∀ fee', checkTxInputs tx' view height = .ok fee' →
            ∀ i ∈ tx'.vin, StillPays view mid height i.prevout := by
          intro tx' htx' fee' hfee' i hi
          apply (hpays tx' (List.mem_cons_of_mem _ htx') fee' hfee' i hi).connected hconnected
          · intro hspent
            exact (List.pairwise_cons.mp hminable.disjoint).1 tx' htx' i.prevout hspent (List.mem_map_of_mem hi)
          · exact hminable.agrees tx List.mem_cons_self i.prevout
        obtain ⟨more, fees', final, hselect, hconnects, hbound⟩ :=
          ih hmid (le_trans hlow hfees) (le_trans htotal hhigh) hminable.tail hrest (not_le.mp hroom)
        refine ⟨tx :: more, fees', final, ?_, ?_, ?_⟩
        · rw [hselect, List.append_assoc]
          rfl
        · rw [connectTxs, hconnect]
          exact hconnects
        · rwa [List.append_assoc] at hbound

/-- A block assembled from transactions that connect is valid, whoever it pays. -/
theorem checkBlock_assembleBlock {view mid : CCoinsView} {height fees : Int} {txs : List CTransaction}
    (hconnect : connectTxs height txs view 0 = .ok (mid, fees)) (hcount : txs.length ≤ 500) (hfees : 0 ≤ fees)
    (hhigh : getBlockSubsidy height + fees ≤ MAX_MONEY) (bits timestamp : UInt32) (prevHash : UInt256)
    (hash160 : Hash160) :
    ∃ view', checkBlock (assembleBlock height bits timestamp prevHash hash160 (getBlockSubsidy height + fees) txs)
        height view = .ok (view', fees) ∧
      ∃ coinbase, (assembleBlock height bits timestamp prevHash hash160 (getBlockSubsidy height + fees) txs).vtx =
          coinbase :: txs ∧ outputValue coinbase.vout = getBlockSubsidy height + fees := by
  obtain ⟨hsubsidy, -⟩ := getBlockSubsidy_bounds height
  obtain ⟨hshort, hlong⟩ := length_minerScriptBytes height
  have hlow : 0 ≤ getBlockSubsidy height + fees := by omega
  have hvalue := value_builtCoinbase (minerScript height) hlow hhigh (buildP2PKHScript hash160)
  have htx : checkTransaction (builtCoinbase (minerScript height) (getBlockSubsidy height + fees)
      (buildP2PKHScript hash160)) = .ok () := checkTransaction_builtCoinbase hshort hlong hlow hhigh _
  have hpaid := connectCoinbase_of_value htx hfees (by omega) (le_of_eq hvalue) mid
  have hvtx : (assembleBlock height bits timestamp prevHash hash160 (getBlockSubsidy height + fees) txs).vtx =
      builtCoinbase (minerScript height) (getBlockSubsidy height + fees) (buildP2PKHScript hash160) :: txs := rfl
  have hlength : (assembleBlock height bits timestamp prevHash hash160 (getBlockSubsidy height + fees) txs).vtx.length ≤
      MAX_TX_COUNT_PER_BLOCK := by
    rw [hvtx, List.length_cons, MAX_TX_COUNT_PER_BLOCK]
    omega
  have hcheck := checkBlock_of_connected hvtx (isCoinBase_builtCoinbase ..) (connectTxs_notCoinBase hconnect) hlength
    (beq_self_eq_true _) hconnect hpaid
  exact ⟨_, hcheck, _, hvtx, hvalue⟩

/-- The template is a valid block over the view it was built for, and its coinbase claims all that
    the block may pay. -/
theorem createCandidateBlock_valid [Memory] {view : CCoinsView} {height : Int} {pool : CTxMemPool} (hview : view.InRange)
    (htotal : view.totalValue + getBlockSubsidy height ≤ MAX_MONEY) (hminable : Minable view pool.getTxs)
    (bits timestamp : UInt32) (prevHash : UInt256) (minerAddress : Bytes) (versionByte : UInt8) :
    ∃ blk fees view', createCandidateBlock height bits timestamp prevHash pool view minerAddress versionByte =
        .ok (blk, fees) ∧ checkBlock blk height view = .ok (view', fees) ∧
      ∃ coinbase txs, blk.vtx = coinbase :: txs ∧ outputValue coinbase.vout = getBlockSubsidy height + fees := by
  obtain ⟨hsubsidy, -⟩ := getBlockSubsidy_bounds height
  obtain ⟨txs, fees, mid, hselect, hconnect, hcount⟩ : ∃ txs fees mid,
      selectTxs view height pool.getTxs [] 0 = .ok ([] ++ txs, fees) ∧
        connectTxs height txs view 0 = .ok (mid, fees) ∧ ([] ++ txs).length ≤ 500 :=
    selectTxs_connected hview hview (le_refl 0) (by omega) hminable (fun _ _ _ hfee _ hi => stillPays_self hfee hi)
      (by decide)
  rw [List.nil_append] at hselect hcount
  obtain ⟨hmid, hfees, hmidTotal⟩ := connectTxs_supply hconnect hview
  have hmidNonneg := hmid.totalValue_nonneg
  have hhigh : getBlockSubsidy height + fees ≤ MAX_MONEY := by omega
  have hsum : addI64 .subsidyPlusFees (getBlockSubsidy height) fees = .ok (getBlockSubsidy height + fees) :=
    addI64_of_money (by omega) (by omega)
  obtain ⟨view', hcheck, coinbase, hvtx, hvalue⟩ := checkBlock_assembleBlock hconnect hcount hfees hhigh bits timestamp
    prevHash (minerHash minerAddress versionByte)
  refine ⟨_, fees, view', ?_, hcheck, coinbase, txs, hvtx, hvalue⟩
  unfold createCandidateBlock
  rw [hselect, bind_ok]
  simp only [hsum, bind_ok]
  rfl

end Selection

end cdx
