import Cdx.Blockchain.HeaviestChain
import Cdx.Lib.Simulation
import Cdx.Mining.Pow
import Cdx.Node.Template

namespace cdx

open codec stream

/-! The loop of the mining thread: what it searches, and what becomes of what it finds. -/

/-- The part of `CMiner` that the loop reads and writes. -/
structure CMiner where
  miningAddress : Bytes
  blocksFound : Int64 := 0
  lastHeightMined : Int := -1
  immatureReward : Int64 := 0

/-- The statistics after a block at this height. The atomic counter wraps; there is no result where the sum of the
    rewards overflows. -/
def CMiner.credit (miner : CMiner) (height fees : Int) : Option CMiner :=
  match addI64 .subsidyPlusFees (getBlockSubsidy height) fees with
  | .error _ => none
  | .ok reward =>
    let total := miner.immatureReward.toInt + reward
    if INT64_MIN ≤ total ∧ total ≤ INT64_MAX then
      some { miner with
        blocksFound := miner.blocksFound + 1
        lastHeightMined := height
        immatureReward := Int64.ofInt total }
    else none

/-- The time of the template: the clock, but later than the tip. -/
def minerTimestamp (now : Int) (tip : CBlockIndex) : UInt32 :=
  let timestamp := UInt32.ofInt now
  if timestamp ≤ tip.timestamp then tip.timestamp + 1 else timestamp

/-- What the environment decides about one pass of the loop: the clock, the rounds in which a stop flag is
    seen, and how many rounds the search may take. -/
structure MinerPass where
  now : Int
  stop : Nat → Bool
  fuel : Nat

structure Mining where
  node : Node
  miner : CMiner

/-- What happens between two passes of the loop, and a pass. -/
inductive MiningEvent where
  | inner (event : NodeEvent)
  | pass (p : MinerPass)

/-- What the coinbase of a block pays. -/
def CBlock.reward (blk : CBlock) : Int :=
  match blk.vtx with
  | [] => 0
  | coinbase :: _ => outputValue coinbase.vout

namespace CBlockchain

def getTip (bc : CBlockchain) : Option CBlockIndex :=
  if bc.chain.height < 0 then none
  else
    match bc.chain.byHeight[bc.chain.height.toNat]? with
    | some hash => bc.getIndex hash
    | none => none

variable [Crypto] [Memory]

/-- The start time of the difficulty interval as the loop looks it up. Other than `AcceptBlock` it reads
    no height above the tip. -/
def minerStartTime (bc : CBlockchain) (params : ChainParams) (tip : CBlockIndex) : Int × CBlockchain :=
  let intervalStart := (tip.height + 1).tdiv params.difficultyInterval * params.difficultyInterval
  if intervalStart > 0 then
    match bc.getBlockByHeight intervalStart with
    | (some firstBlk, bc) => (firstBlk.header.timestamp.toNat, bc)
    | (none, bc) => (tip.timestamp.toNat, bc)
  else (tip.timestamp.toNat, bc)

def minerBits (bc : CBlockchain) (params : ChainParams) (tip : CBlockIndex) : UInt32 × CBlockchain :=
  let (firstTime, bc) := bc.minerStartTime params tip
  (getNextWorkRequired tip.timestamp.toNat tip.height tip.bits firstTime params, bc)

end CBlockchain

section Loop

variable [Crypto]

/-- The search of one pass: `none` if the fuel runs out, otherwise the header it ends with, if any. After the
    last nonce it starts again, one second later. -/
def searchLoop (stop : Nat → Bool) (vtx : List CTransaction) (target : UInt256) :
    Nat → Nat → CBlockHeader → Bytes → UInt32 → Option (Option CBlockHeader)
  | 0, _, _, _, _ => none
  | fuel + 1, round, header, hdr, nonce =>
    if stop round then some none
    else
      let hdr := overwrite hdr 76 (writeU32 nonce)
      if sha256d hdr ≤ target then some (some { header with nonce := nonce })
      else if nonce + 1 = 0 then
        let next := { header with timestamp := header.timestamp + 1, merkleRoot := computeMerkleRootOfTxs vtx }
        searchLoop stop vtx target fuel (round + 1) next (serializeBlockHeader next) 0
      else searchLoop stop vtx target fuel (round + 1) header hdr (nonce + 1)

variable [Memory] (params : ChainParams) (versionByte : UInt8)

namespace Mining

/-- A pass up to the end of its search: the block it has found and the fees of its template, if any, and the
    chain after the reads. There is no result when a sum overflows or the search goes on. -/
def mine (s : Mining) (pass : MinerPass) : Option (Option (CBlock × Int) × CBlockchain) :=
  if s.miner.miningAddress = [] then some (none, s.node.chain)
  else
    match s.node.chain.getTip with
    | none => some (none, s.node.chain)
    | some tip =>
      let (bits, chain) := s.node.chain.minerBits params tip
      match createCandidateBlock (tip.height + 1) bits (minerTimestamp pass.now tip) chain.chain.tipHash s.node.mempool
          chain.chain.view s.miner.miningAddress versionByte with
      | .error _ => none
      | .ok (candidate, fees) =>
        match searchLoop pass.stop candidate.vtx (targetFromBits bits) pass.fuel 0 candidate.header
            (serializeBlockHeader candidate.header) 0 with
        | none => none
        | some none => some (none, chain)
        | some (some header) => some (some ({ candidate with header := header }, fees), chain)

/-- One pass of `RunMinerLoop`. -/
def pass (s : Mining) (pass : MinerPass) : Option Mining :=
  match s.mine params versionByte pass with
  | none => none
  | some (none, chain) => some { node := { chain := chain, mempool := s.node.mempool }, miner := s.miner }
  | some (some (blk, fees), chain) =>
    match Node.acceptBlock params { chain := chain, mempool := s.node.mempool } blk with
    | none => none
    | some (r, node) =>
      if r.ok then (s.miner.credit node.chain.chain.height fees).map fun miner => { node := node, miner := miner }
      else some { node := node, miner := s.miner }

def step (s : Mining) : MiningEvent → Option Mining
  | .inner event => (s.node.step params event).map fun node => { node := node, miner := s.miner }
  | .pass p => s.pass params versionByte p

/-- The block that an event connects for the miner. -/
def won (s : Mining) : MiningEvent → List CBlock
  | .inner _ => []
  | .pass p =>
    match s.mine params versionByte p with
    | some (some (blk, _), chain) =>
      match Node.acceptBlock params { chain := chain, mempool := s.node.mempool } blk with
      | some (r, _) => if r.ok then [blk] else []
      | none => []
    | _ => []

/-- A block that the event finds is one the node does not have. -/
def FindsNew (s : Mining) : MiningEvent → Prop
  | .inner _ => True
  | .pass p => ∀ blk fees chain, s.mine params versionByte p = some (some (blk, fees), chain) →
      s.node.chain.haveBlock blk.getHash = false

end Mining

end Loop

section Credit

theorem CMiner.credit_eq_some {miner miner' : CMiner} {height fees : Int} (hcredit : miner.credit height fees = some miner') :
    miner'.blocksFound = miner.blocksFound + 1 ∧ miner'.lastHeightMined = height ∧
      miner'.immatureReward.toInt = miner.immatureReward.toInt + (getBlockSubsidy height + fees) := by
  unfold credit at hcredit
  split at hcredit
  · cases hcredit
  next reward hreward =>
    obtain ⟨-, rfl⟩ := addI64_eq_ok_iff.mp hreward
    simp only at hcredit
    split at hcredit
    next hrange =>
      cases hcredit
      rw [INT64_MIN_eq, INT64_MAX_eq] at hrange
      exact ⟨rfl, rfl, Int64.toInt_ofInt_of_le (by omega) (by omega)⟩
    · cases hcredit

theorem CMiner.exists_credit {miner : CMiner} {height fees : Int} (hlow : 0 ≤ getBlockSubsidy height + fees)
    (hmoney : getBlockSubsidy height + fees ≤ MAX_MONEY)
    (hhigh : miner.immatureReward.toInt + (getBlockSubsidy height + fees) ≤ INT64_MAX) :
    ∃ miner', miner.credit height fees = some miner' := by
  have hreward : addI64 .subsidyPlusFees (getBlockSubsidy height) fees = .ok (getBlockSubsidy height + fees) :=
    addI64_of_money hlow (by omega)
  have hmin := Int64.le_toInt miner.immatureReward
  have hrange : INT64_MIN ≤ miner.immatureReward.toInt + (getBlockSubsidy height + fees) := by
    rw [INT64_MIN_eq]
    omega
  unfold credit
  simp only [hreward, if_pos (And.intro hrange hhigh), Option.some.injEq, exists_eq']

end Credit

section Search

variable [Crypto]

/-- What the search changes in the header: the time and the nonce. -/
structure Solves (header found : CBlockHeader) (target : UInt256) : Prop where
  prevBlockHash : found.prevBlockHash = header.prevBlockHash
  merkleRoot : found.merkleRoot = header.merkleRoot
  bits : found.bits = header.bits
  work : found.getHash ≤ target

theorem solves_of_searchLoop {stop : Nat → Bool} {vtx : List CTransaction} {target : UInt256} {fuel round : Nat}
    {header found : CBlockHeader} {last nonce : UInt32} (hroot : header.merkleRoot = computeMerkleRootOfTxs vtx)
    (hfound : searchLoop stop vtx target fuel round header (serializeBlockHeader { header with nonce := last }) nonce =
      some (some found)) : Solves header found target := by
  induction fuel generalizing round header last nonce with
  | zero => cases hfound
  | succ fuel ih =>
    rw [searchLoop] at hfound
    split at hfound
    · cases hfound
    simp only [overwrite_header] at hfound
    split at hfound
    next hwork =>
      cases hfound
      exact ⟨rfl, rfl, rfl, hwork⟩
    split at hfound
    · -- The nonces are used up: the search starts again with a header that differs in its time only.
      have hnext := ih rfl hfound
      exact ⟨hnext.prevBlockHash, hnext.merkleRoot.trans hroot.symm, hnext.bits, hnext.work⟩
    · exact ih hroot hfound

/-- The template's header is the one `CreateCandidateBlock` was asked for. -/
theorem createCandidateBlock_header [Memory] {height fees : Int} {bits timestamp : UInt32} {prevHash : UInt256}
    {pool : CTxMemPool} {view : CCoinsView} {minerAddress : Bytes} {versionByte : UInt8} {blk : CBlock}
    (hcreate : createCandidateBlock height bits timestamp prevHash pool view minerAddress versionByte =
      .ok (blk, fees)) :
    blk.header.prevBlockHash = prevHash ∧ blk.header.bits = bits ∧
      blk.header.merkleRoot = computeMerkleRootOfTxs blk.vtx := by
  obtain ⟨⟨txs, fees'⟩, -, hrest⟩ := bind_eq_ok_iff.mp hcreate
  obtain ⟨value, -, hpure⟩ := bind_eq_ok_iff.mp hrest
  cases hpure
  exact ⟨rfl, rfl, rfl⟩

/-- The coinbase of a template pays the subsidy and the fees. -/
theorem createCandidateBlock_reward [Memory] {height fees : Int} {bits timestamp : UInt32} {prevHash : UInt256}
    {pool : CTxMemPool} {view : CCoinsView} {minerAddress : Bytes} {versionByte : UInt8} {blk : CBlock}
    (hcreate : createCandidateBlock height bits timestamp prevHash pool view minerAddress versionByte =
      .ok (blk, fees)) : blk.reward = getBlockSubsidy height + fees := by
  obtain ⟨⟨txs, fees'⟩, -, hrest⟩ := bind_eq_ok_iff.mp hcreate
  obtain ⟨value, hvalue, hpure⟩ := bind_eq_ok_iff.mp hrest
  cases hpure
  obtain ⟨⟨hlow, hhigh⟩, rfl⟩ := addI64_eq_ok_iff.mp hvalue
  rw [INT64_MIN_eq] at hlow
  rw [INT64_MAX_eq] at hhigh
  have hpays : (Int64.ofInt (getBlockSubsidy height + fees)).toInt = getBlockSubsidy height + fees :=
    Int64.toInt_ofInt_of_le (by omega) (by omega)
  rw [CBlock.reward, assembleBlock]
  simp only [outputValue, builtCoinbase, List.map_singleton, List.sum_singleton]
  exact hpays

/-- A block that `CheckBlock` accepts pays an amount of money. -/
theorem reward_of_checkBlock {blk : CBlock} {height fees : Int} {view view' : CCoinsView}
    (hblk : checkBlock blk height view = .ok (view', fees)) : 0 ≤ blk.reward ∧ blk.reward ≤ MAX_MONEY := by
  obtain ⟨coinbase, txs, mid, haccepted⟩ := checkBlock_eq_ok hblk
  have hcoinbase := haccepted.coinbase_connected.wellFormed
  rw [CBlock.reward, haccepted.vtx_eq]
  exact ⟨outputValue_nonneg fun out hout => (hcoinbase.values out hout).1, hcoinbase.total⟩

/-- `CheckBlock` looks at no more of the header than its root. -/
theorem checkBlock_header {blk : CBlock} {header : CBlockHeader} (hroot : header.merkleRoot = blk.header.merkleRoot)
    (height : Int) (view : CCoinsView) :
    checkBlock { blk with header := header } height view = checkBlock blk height view := by
  have hmerkle : CBlock.checkMerkleRoot { blk with header := header } = blk.checkMerkleRoot := by
    rw [CBlock.checkMerkleRoot, CBlock.checkMerkleRoot, hroot]
  unfold checkBlock
  simp only [hmerkle]

omit [Crypto] in
/-- The start of the interval only counts where a new one begins. -/
theorem getNextWorkRequired_congr {params : ChainParams} {lastBlockTime lastBlockHeight : Int} {lastBits : UInt32}
    {a b : Int} (hsame : params.powNoRetarget = false →
      (lastBlockHeight + 1).tmod params.difficultyInterval = 0 → a = b) :
    getNextWorkRequired lastBlockTime lastBlockHeight lastBits a params =
      getNextWorkRequired lastBlockTime lastBlockHeight lastBits b params := by
  unfold getNextWorkRequired
  by_cases hfixed : params.powNoRetarget = true
  · rw [if_pos hfixed, if_pos hfixed]
  rw [if_neg hfixed, if_neg hfixed]
  by_cases hinside : (lastBlockHeight + 1).tmod params.difficultyInterval ≠ 0
  · rw [if_pos hinside, if_pos hinside]
  rw [if_neg hinside, if_neg hinside, hsame (Bool.eq_false_of_not_eq_true hfixed) (not_not.mp hinside)]

variable [Memory] {params : ChainParams} {bc : CBlockchain} {blocks : List CBlock}

theorem Active.getTip (hactive : Active params bc blocks) {last : CBlock} (hlast : blocks.getLast? = some last) :
    bc.getTip =
      some (last.indexEntry (blocks.length - 1 : Nat) (chainWorkOf blocks) (decide (blocks.length - 1 = 0))) := by
  have hpos := List.length_pos_of_ne_nil hactive.ne_nil
  have hget : blocks[blocks.length - 1]? = some last := by rw [← List.getLast?_eq_getElem?, hlast]
  have hheight : bc.chain.height.toNat = blocks.length - 1 := by
    rw [hactive.height]
    omega
  have hbyHeight : bc.chain.byHeight[blocks.length - 1]? = some last.getHash := by
    rw [hactive.byHeight, List.getElem?_map, hget, Option.map_some]
  have hnonneg : ¬ bc.chain.height < 0 := by
    rw [hactive.height]
    omega
  rw [CBlockchain.getTip, if_neg hnonneg, hheight, hbyHeight]
  exact hactive.last_indexed hlast

theorem CBlockchain.minerBits_touched (bc : CBlockchain) (params : ChainParams) (tip : CBlockIndex) :
    CBlockchain.Touched bc (bc.minerBits params tip).2 := by
  unfold CBlockchain.minerBits CBlockchain.minerStartTime
  simp only
  split
  next hpos =>
    obtain ⟨h, hh⟩ := Int.eq_ofNat_of_zero_le (le_of_lt hpos)
    have htouched := CBlockchain.getBlockByHeight_snd bc h
    rw [hh]
    cases hread : bc.getBlockByHeight h with
    | mk firstBlk bc' =>
      rw [hread] at htouched
      cases firstBlk with
      | none => exact htouched
      | some firstBlk => exact htouched
  · exact Or.inl rfl

/-- No retarget depends on what lies behind the hashes of the chain. -/
def WindowClosed (params : ChainParams) (blocks : List CBlock) : Prop :=
  params.powNoRetarget = false → (blocks.length : Int).tmod params.difficultyInterval = 0 →
    Memory.readPastEnd (blocks.map CBlock.getHash) blocks.length = none

/-- The loop asks for the bits that `AcceptBlock` demands. -/
theorem Active.minerBits (hactive : Active params bc blocks) (hwindow : WindowClosed params blocks) (last : CBlock)
    (work : UInt256) (isGenesis : Bool) :
    (bc.minerBits params (last.indexEntry (blocks.length - 1 : Nat) work isGenesis)).1 =
      requiredBits params blocks last.header := by
  have hpos := List.length_pos_of_ne_nil hactive.ne_nil
  have hheight : ((blocks.length - 1 : Nat) : Int) = blocks.length - 1 := by omega
  have hnext : (blocks.length - 1 : Int) + 1 = blocks.length := by omega
  unfold CBlockchain.minerBits requiredBits
  simp only [CBlock.indexEntry, hheight]
  apply getNextWorkRequired_congr
  intro hretarget hboundary
  rw [hnext] at hboundary
  have hstart : (blocks.length : Int).tdiv params.difficultyInterval * params.difficultyInterval = blocks.length := by
    have hdivision := Int.mul_tdiv_add_tmod (blocks.length : Int) params.difficultyInterval
    rw [hboundary, Int.add_zero] at hdivision
    rw [Int.mul_comm]
    exact hdivision
  have hnone : blocks[blocks.length]? = none := List.getElem?_eq_none (le_refl _)
  have hread := hactive.getBlockByHeight blocks.length
  rw [hnone] at hread
  have hpositive : (blocks.length : Int) > 0 := by omega
  have hours : (bc.minerStartTime params (last.indexEntry (blocks.length - 1 : Nat) work isGenesis)).1 =
      last.header.timestamp.toNat := by
    unfold CBlockchain.minerStartTime
    simp only [CBlock.indexEntry, hheight, hnext, hstart, if_pos hpositive]
    cases hcase : bc.getBlockByHeight blocks.length with
    | mk found bc' =>
      rw [hcase] at hread
      cases hread
      rfl
  have htheirs : startTime params blocks last.header = last.header.timestamp.toNat := by
    unfold startTime
    simp only [hnext, hstart, if_pos hpositive, Int.toNat_natCast, hnone, hwindow hretarget hboundary]
  simp only [CBlock.indexEntry, hheight] at hours
  rw [htheirs]
  exact hours

end Search

namespace Mining

section Found

variable [Crypto] [Memory] {params : ChainParams} {versionByte : UInt8} {s : Mining} {p : MinerPass} {blk : CBlock}
  {fees : Int} {chain : CBlockchain} {blocks : List CBlock}

/-- Until the block is handed over, a pass only reads the chain; and a block that it has found solves the header of
    a template on the tip. -/
theorem mine_eq_some {found : Option (CBlock × Int)} (hmine : s.mine params versionByte p = some (found, chain)) :
    CBlockchain.Touched s.node.chain chain ∧ ∀ blk fees, found = some (blk, fees) →
      ∃ tip bits candidate header, s.node.chain.getTip = some tip ∧ s.node.chain.minerBits params tip = (bits, chain) ∧
        createCandidateBlock (tip.height + 1) bits (minerTimestamp p.now tip) chain.chain.tipHash s.node.mempool
          chain.chain.view s.miner.miningAddress versionByte = .ok (candidate, fees) ∧
        Solves candidate.header header (targetFromBits bits) ∧ blk = { candidate with header := header } := by
  unfold mine at hmine
  split at hmine
  · cases hmine
    exact ⟨Or.inl rfl, by rintro _ _ ⟨⟩⟩
  split at hmine
  · cases hmine
    exact ⟨Or.inl rfl, by rintro _ _ ⟨⟩⟩
  next tip htip =>
  have hread := CBlockchain.minerBits_touched s.node.chain params tip
  cases hbits : s.node.chain.minerBits params tip with
  | mk bits chain' =>
    rw [hbits] at hread
    simp only [hbits] at hmine
    split at hmine
    · cases hmine
    next candidate fees hcreate =>
    split at hmine
    · cases hmine
    · cases hmine
      exact ⟨hread, by rintro _ _ ⟨⟩⟩
    next header hsearch =>
      cases hmine
      refine ⟨hread, ?_⟩
      rintro _ _ ⟨⟩
      exact ⟨tip, bits, candidate, header, htip, hbits, hcreate,
        solves_of_searchLoop (createCandidateBlock_header hcreate).2.2 hsearch, rfl⟩

/-- The block that a pass has found extends the chain, and its coinbase claims what the block may pay. -/
theorem extendsAt_found (hactive : Active params s.node.chain blocks)
    (hminable : Minable s.node.chain.chain.view s.node.mempool.getTxs) (hwindow : WindowClosed params blocks)
    (hmine : s.mine params versionByte p = some (some (blk, fees), chain))
    (hunknown : s.node.chain.haveBlock blk.getHash = false)
    (htarget : (targetFromBits blk.header.bits).isZero = false)
    (htime : ∀ tip, s.node.chain.getTip = some tip → tip.timestamp < blk.header.timestamp) :
    CBlockchain.Touched s.node.chain chain ∧ ExtendsAt params chain blk blocks ∧ 0 ≤ blk.reward ∧ blk.reward ≤ MAX_MONEY ∧
      ∃ coinbase txs, blk.vtx = coinbase :: txs ∧
        outputValue coinbase.vout = getBlockSubsidy blocks.length + fees := by
  obtain ⟨htouched, hfound⟩ := mine_eq_some hmine
  obtain ⟨tip, bits, candidate, header, htip, hbits, hcreate, hsolves, rfl⟩ := hfound blk fees rfl
  obtain ⟨last, hlast, hlastHash⟩ := hactive.tip
  have hpos := List.length_pos_of_ne_nil hactive.ne_nil
  have hlater := htime tip htip
  rw [hactive.getTip hlast, Option.some.injEq] at htip
  subst htip
  have hrequired := hactive.minerBits hwindow last (chainWorkOf blocks) (decide (blocks.length - 1 = 0))
  rw [hbits] at hrequired
  have hchain := htouched.chain_eq
  obtain ⟨hprev, hcandidateBits, -⟩ := createCandidateBlock_header hcreate
  have hnext : ((blocks.length - 1 : Nat) : Int) + 1 = blocks.length := by omega
  have hcheck : ∃ view', checkBlock candidate blocks.length s.node.chain.chain.view = .ok (view', fees) ∧
      ∃ coinbase txs, candidate.vtx = coinbase :: txs ∧
        outputValue coinbase.vout = getBlockSubsidy blocks.length + fees := by
    have hfunded := hactive.funded
    have htotal : s.node.chain.chain.view.totalValue + getBlockSubsidy blocks.length ≤ MAX_MONEY := by
      have hsupply := subsidySum_le (blocks.length + 1)
      rw [subsidySum_succ] at hsupply
      exact le_trans (Int.add_le_add_right hfunded.total _) hsupply
    obtain ⟨candidate', fees', view', hcreate', hcheck, hcoinbase⟩ := createCandidateBlock_valid hfunded.inRange htotal
      hminable bits (minerTimestamp p.now (last.indexEntry (blocks.length - 1 : Nat) (chainWorkOf blocks)
        (decide (blocks.length - 1 = 0)))) s.node.chain.chain.tipHash s.miner.miningAddress versionByte
    simp only [CBlock.indexEntry, hnext, hchain] at hcreate
    simp only [CBlock.indexEntry] at hcreate'
    rw [hcreate, Except.ok.injEq, Prod.mk.injEq] at hcreate'
    obtain ⟨rfl, rfl⟩ := hcreate'
    exact ⟨view', hcheck, hcoinbase⟩
  obtain ⟨view', hcheck, coinbase, txs, hvtx, hvalue⟩ := hcheck
  obtain ⟨hlow, hmoney⟩ := reward_of_checkBlock hcheck
  have hheaderBits : header.bits = bits := hsolves.bits.trans hcandidateBits
  refine ⟨htouched, ⟨?_, (hactive.touched htouched).readChain, ?_, ?_, ?_⟩, hlow, hmoney, coinbase, txs, hvtx, hvalue⟩
  · rw [CBlockchain.haveBlock, hchain]
    exact hunknown
  · intro last' hlast'
    rw [hlast, Option.some.injEq] at hlast'
    subst hlast'
    refine checkBlockHeader_some_eq_ok_iff.mpr ⟨?_, ?_, hlater⟩
    · simp only at htarget
      rw [checkProofOfWork]
      simp only [htarget, Bool.false_eq_true, if_false, decide_eq_true_eq]
      rw [hheaderBits]
      exact hsolves.work
    · exact hsolves.prevBlockHash.trans (hprev.trans ((congrArg CChain.tipHash hchain).trans hlastHash))
  · intro last' hlast'
    rw [hlast, Option.some.injEq] at hlast'
    subst hlast'
    exact hheaderBits.trans hrequired
  · refine ⟨view', ?_⟩
    rw [replay_append, hactive.replayed, bind_ok, replay_singleton_eq_ok_iff, Nat.zero_add]
    exact ⟨fees, (checkBlock_header hsolves.merkleRoot _ _).trans hcheck⟩

/-- What a pass does with a block that extends the chain. -/
theorem pass_found {miner : CMiner} (hactive : Active params s.node.chain blocks)
    (hmine : s.mine params versionByte p = some (some (blk, fees), chain))
    (htouched : CBlockchain.Touched s.node.chain chain) (hextends : ExtendsAt params chain blk blocks)
    (hcredit : s.miner.credit blocks.length fees = some miner) :
    ∃ node, s.pass params versionByte p = some ⟨node, miner⟩ ∧ Active params node.chain (blocks ++ [blk]) := by
  obtain ⟨r, bc', haccept, hok, hactive'⟩ := (hactive.touched htouched).tryAcceptBlock_extends hextends
  have hheight : bc'.chain.height = blocks.length := by
    rw [hactive'.height, List.length_append, List.length_singleton]
    omega
  refine ⟨{ chain := bc', mempool := (s.node.mempool.removeSpent bc'.chain.view bc'.chain.height).2 }, ?_, hactive'⟩
  rw [pass, hmine]
  simp only [Node.acceptBlock, haccept, hok, if_true, hheight, hcredit, Option.map_some]

/-- In every state that admissions and deliveries reach, a block that the loop finds becomes the tip, and the
    reward that is booked for it is what its coinbase pays, as long as the sum of the rewards does not overflow. -/
theorem run_mined {start : CBlockchain} {events : List NodeEvent}
    (hcollision : Set.InjOn sha256d
      (serializeTransaction '' (occurring (Node.blocks events) ∪ { tx | tx ∈ Node.offered events })))
    (hfresh : CBlockchain.fresh params = some start) :
    ∃ node active, transition.run (Node.step params) { chain := start } events = some node ∧
      node.chain.readChain = some active ∧
      ∀ miner p blk fees chain, mine params versionByte ⟨node, miner⟩ p = some (some (blk, fees), chain) →
        node.chain.haveBlock blk.getHash = false → (targetFromBits blk.header.bits).isZero = false →
        (∀ tip, node.chain.getTip = some tip → tip.timestamp < blk.header.timestamp) → WindowClosed params active →
        miner.immatureReward.toInt + blk.reward ≤ INT64_MAX →
        ∃ s' coinbase txs, pass params versionByte ⟨node, miner⟩ p = some s' ∧
          s'.node.chain.readChain = some (active ++ [blk]) ∧ blk.vtx = coinbase :: txs ∧
          s'.miner.blocksFound = miner.blocksFound + 1 ∧ s'.miner.lastHeightMined = active.length ∧
          s'.miner.immatureReward.toInt = miner.immatureReward.toInt + outputValue coinbase.vout := by
  obtain ⟨node, hrun, hoccurs, hadmitted⟩ := Node.run_fresh events hfresh Node.poolAdmitted_empty
    (fun _ _ _ hevent _ hadmitted hstep => Node.PoolAdmitted.step hadmitted hevent hstep)
  obtain ⟨active, hactive, -⟩ := id hoccurs
  refine ⟨node, active, hrun, hactive.readChain, ?_⟩
  intro miner p blk fees chain hmine hunknown htarget htime hwindow hbound
  have hminable := hadmitted.minable hoccurs hcollision
  obtain ⟨htouched, hextends, hlow, hmoney, coinbase, txs, hvtx, hvalue⟩ :=
    extendsAt_found hactive hminable hwindow hmine hunknown htarget htime
  rw [CBlock.reward, hvtx] at hlow hmoney hbound
  simp only [hvalue] at hlow hmoney hbound
  obtain ⟨miner', hcredit⟩ := CMiner.exists_credit hlow hmoney hbound
  obtain ⟨node', hpass, hactive'⟩ := pass_found hactive hmine htouched hextends hcredit
  obtain ⟨hfound, hheight, hreward⟩ := CMiner.credit_eq_some hcredit
  exact ⟨⟨node', miner'⟩, coinbase, txs, hpass, hactive'.readChain, hvtx, hfound, hheight, hreward.trans (by rw [hvalue])⟩

/-- A block that a pass has found and the node has accepted sits one above the tip. -/
theorem height_of_accepted {node : Node} {r : ReorgResult} (hactive : Active params s.node.chain blocks)
    (hmine : s.mine params versionByte p = some (some (blk, fees), chain))
    (hunknown : s.node.chain.haveBlock blk.getHash = false)
    (haccept : Node.acceptBlock params { chain := chain, mempool := s.node.mempool } blk = some (r, node))
    (hok : r.ok = true) : node.chain.chain.height = blocks.length ∧ blk.reward = getBlockSubsidy blocks.length + fees := by
  obtain ⟨htouched, hfound⟩ := mine_eq_some hmine
  obtain ⟨tip, bits, candidate, header, htip, -, hcreate, hsolves, rfl⟩ := hfound blk fees rfl
  have hchain := htouched.chain_eq
  have hactive' := hactive.touched htouched
  obtain ⟨last, hlast, hlastHash⟩ := hactive'.tip
  have hpos := List.length_pos_of_ne_nil hactive.ne_nil
  have hnext : ((blocks.length - 1 : Nat) : Int) + 1 = blocks.length := by omega
  have hprev : header.prevBlockHash = chain.chain.tipHash :=
    hsolves.prevBlockHash.trans (createCandidateBlock_header hcreate).1
  rw [hactive.getTip hlast, Option.some.injEq] at htip
  subst htip
  simp only [CBlock.indexEntry, hnext] at hcreate
  have hreward : candidate.reward = getBlockSubsidy blocks.length + fees := createCandidateBlock_reward hcreate
  refine ⟨?_, hreward⟩
  -- The parent of the block is the tip, so it can only have been appended.
  cases CBlockchain.delivered_of_tryAcceptBlock (Node.acceptBlock_eq_some haccept).1 with
  | known hknown =>
    rw [CBlockchain.haveBlock, hchain] at hknown
    exact absurd (hknown.symm.trans hunknown) (by decide)
  | rejected message _ _ => cases hok
  | reorganised _ _ hfork => exact absurd hprev hfork
  | extended _ hindex _ _ _ _ _ hresult =>
    simp only [hprev, hlastHash, hactive'.last_indexed hlast, Option.some.injEq] at hindex
    subst hindex
    rw [hresult, CBlockchain.applyBlock_chain]
    exact hnext

theorem step_booked {s' : Mining} {event : MiningEvent} (hactive : ∃ blocks, Active params s.node.chain blocks)
    (hnew : s.FindsNew params versionByte event) (hstep : s.step params versionByte event = some s') :
    (∃ blocks, Active params s'.node.chain blocks) ∧
      s'.miner.blocksFound = s.miner.blocksFound + Int64.ofNat (s.won params versionByte event).length ∧
      s'.miner.immatureReward.toInt =
        s.miner.immatureReward.toInt + ((s.won params versionByte event).map CBlock.reward).sum := by
  cases event with
  | inner event =>
    obtain ⟨node, hnode, rfl⟩ := Option.map_eq_some_iff.mp hstep
    exact ⟨Node.step_active hactive hnode, by simp [won], by simp [won]⟩
  | pass p =>
    obtain ⟨blocks, hblocks⟩ := hactive
    rw [step, pass] at hstep
    rw [won]
    cases hmine : s.mine params versionByte p with
    | none =>
      rw [hmine] at hstep
      cases hstep
    | some result =>
      obtain ⟨found, chain⟩ := result
      have hread := hblocks.touched (mine_eq_some hmine).1
      cases found with
      | none =>
        rw [hmine] at hstep
        cases hstep
        exact ⟨⟨blocks, hread⟩, by simp, by simp⟩
      | some found =>
        obtain ⟨blk, fees⟩ := found
        simp only [hmine] at hstep ⊢
        cases haccept : Node.acceptBlock params { chain := chain, mempool := s.node.mempool } blk with
        | none =>
          rw [haccept] at hstep
          cases hstep
        | some result =>
          obtain ⟨r, node⟩ := result
          have hactive' : ∃ blocks, Active params node.chain blocks :=
            active_deliver ⟨blocks, hread⟩ (Node.deliver_of_tryAcceptBlock (Node.acceptBlock_eq_some haccept).1)
          simp only [haccept] at hstep ⊢
          cases hok : r.ok with
          | false =>
            rw [hok] at hstep
            cases hstep
            exact ⟨hactive', by simp, by simp⟩
          | true =>
            obtain ⟨hheight, hreward⟩ := height_of_accepted hblocks hmine (hnew blk fees chain hmine) haccept hok
            rw [hok, if_pos rfl, hheight] at hstep
            obtain ⟨miner, hcredit, rfl⟩ := Option.map_eq_some_iff.mp hstep
            obtain ⟨hfound, -, hsum⟩ := CMiner.credit_eq_some hcredit
            refine ⟨hactive', ?_, ?_⟩
            · rw [if_pos rfl, List.length_singleton]
              exact hfound
            · rw [if_pos rfl, List.map_singleton, List.sum_singleton, hreward]
              exact hsum

/-- In every run of a node and its miner the statistics are those of the blocks that the miner has connected,
    unless it finds a block that the node already has. -/
theorem run_booked {start : CBlockchain} {miner : CMiner} {final : Mining} {events : List MiningEvent}
    (hfresh : CBlockchain.fresh params = some start)
    (hnew : ∀ s event, transition.Takes (step params versionByte) ⟨{ chain := start }, miner⟩ events s event →
      s.FindsNew params versionByte event)
    (hrun : transition.run (step params versionByte) ⟨{ chain := start }, miner⟩ events = some final) :
    let connected := transition.emitted (step params versionByte) (won params versionByte) ⟨{ chain := start }, miner⟩
      events
    final.miner.blocksFound = miner.blocksFound + Int64.ofNat connected.length ∧
      final.miner.immatureReward.toInt = miner.immatureReward.toInt + (connected.map CBlock.reward).sum := by
  obtain ⟨g, view, fees, -, -, -, hactive⟩ := fresh_active hfresh
  have hstart : ∃ blocks, Active params start blocks := ⟨[g], hactive⟩
  refine ⟨?_, ?_⟩
  · have hadds : ∀ (s : Mining) (event : MiningEvent) (s' : Mining),
        (∃ blocks, Active params s.node.chain blocks) → s.FindsNew params versionByte event →
        s.step params versionByte event = some s' → (∃ blocks, Active params s'.node.chain blocks) ∧
          s'.miner.blocksFound.toBitVec =
            s.miner.blocksFound.toBitVec + ((s.won params versionByte event).map fun _ => (1 : BitVec 64)).sum := by
      intro s event s' hI hG hstep
      obtain ⟨hI', hcount, -⟩ := step_booked hI hG hstep
      refine ⟨hI', ?_⟩
      rw [hcount, Int64.toBitVec_add]
      simp
    have hcount := transition.run_sum (μ := fun s : Mining => s.miner.blocksFound.toBitVec) hadds hstart hnew hrun
    apply Int64.toBitVec_inj.mp
    rw [hcount, Int64.toBitVec_add]
    simp
  · exact transition.run_sum (μ := fun s : Mining => s.miner.immatureReward.toInt)
      (I := fun s : Mining => ∃ blocks, Active params s.node.chain blocks)
      (fun s event s' hI hG hstep => ⟨(step_booked hI hG hstep).1, (step_booked hI hG hstep).2.2⟩) hstart hnew hrun

end Found

end Mining

section

attribute [local instance] toolCrypto zeroMemory

/-- A pass over a new regression network, two seconds after the genesis block. -/
def firstPass : MinerPass where
  now := 1717200002
  stop _ := false
  fuel := 1

/-- A node that has just started, with a miner that pays no proper address. -/
def newMining (start : CBlockchain) : Mining where
  node := { chain := start }
  miner := { miningAddress := ascii "1" }

/-- The first pass finds a block and books the whole subsidy. -/
theorem mine_firstPass : ∃ start blk fees chain s', CBlockchain.fresh regtestParams = some start ∧
    (newMining start).mine regtestParams 0x1e firstPass = some (some (blk, fees), chain) ∧
    (newMining start).pass regtestParams 0x1e firstPass = some s' ∧ start.haveBlock blk.getHash = false ∧
    (targetFromBits blk.header.bits).isZero = false ∧ blk.reward = INITIAL_BLOCK_REWARD ∧
    s'.miner.immatureReward.toInt = INITIAL_BLOCK_REWARD ∧
    ∀ tip, start.getTip = some tip → tip.timestamp < blk.header.timestamp := by
  have hevaluated : ((CBlockchain.fresh regtestParams).bind fun start =>
      ((newMining start).mine regtestParams 0x1e firstPass).bind fun result =>
        result.1.map fun found =>
          (((newMining start).pass regtestParams 0x1e firstPass).map fun s' => s'.miner.immatureReward.toInt,
            start.haveBlock found.1.getHash, (targetFromBits found.1.header.bits).isZero, found.1.reward,
            start.getTip.all fun tip => decide (tip.timestamp < found.1.header.timestamp))) =
      some (some INITIAL_BLOCK_REWARD, false, false, INITIAL_BLOCK_REWARD, true) := by
    rw [← tableCrypto_eq digests_right]
    decide +kernel
  obtain ⟨start, hfresh, hstart⟩ := Option.bind_eq_some_iff.mp hevaluated
  obtain ⟨⟨found, chain⟩, hmine, hfound⟩ := Option.bind_eq_some_iff.mp hstart
  obtain ⟨⟨blk, fees⟩, rfl, hfacts⟩ := Option.map_eq_some_iff.mp hfound
  simp only [Prod.mk.injEq] at hfacts
  obtain ⟨hpass, hunknown, htarget, hreward, htime⟩ := hfacts
  obtain ⟨s', hpass, hbooked⟩ := Option.map_eq_some_iff.mp hpass
  refine ⟨start, blk, fees, chain, s', hfresh, hmine, hpass, hunknown, htarget, hreward, hbooked, ?_⟩
  intro tip htip
  rw [htip] at htime
  exact of_decide_eq_true htime

theorem run_mined_regtest : ∃ start active s' blk, CBlockchain.fresh regtestParams = some start ∧
    (newMining start).pass regtestParams 0x1e firstPass = some s' ∧ start.readChain = some active ∧
    s'.node.chain.readChain = some (active ++ [blk]) ∧ s'.miner.blocksFound = 1 := by
  obtain ⟨start, blk, fees, chain, -, hfresh, hmine, -, hunknown, htarget, hreward, -, hlater⟩ := mine_firstPass
  have htxs : ∀ tx ∈ occurring (Node.blocks []) ∪ { tx | tx ∈ Node.offered [] },
      tx = genesisTx ∨ tx = regtestCoinbase 1 := by
    rintro tx (hoccurs | hoffered)
    · exact occurring_first (by simp [Node.blocks]) tx hoccurs
    · cases hoffered
  obtain ⟨node, active, hrun, hactive, hmined⟩ := Mining.run_mined (collisionFree_first htxs) hfresh
  cases hrun
  have hwindow : WindowClosed regtestParams active := by
    intro hretarget
    cases hretarget
  obtain ⟨s', -, -, hpass, hchain, -, hfound, -, -⟩ := hmined _ _ blk fees chain hmine hunknown htarget hlater hwindow
    (by rw [hreward]; decide)
  exact ⟨start, active, s', blk, hfresh, hpass, hactive, hchain, hfound⟩

theorem run_booked_regtest : ∃ start final, CBlockchain.fresh regtestParams = some start ∧
    transition.run (Mining.step regtestParams 0x1e) (newMining start) [.pass firstPass] = some final ∧
    final.miner.immatureReward.toInt = INITIAL_BLOCK_REWARD ∧
    ((transition.emitted (Mining.step regtestParams 0x1e) (Mining.won regtestParams 0x1e) (newMining start)
      [.pass firstPass]).map CBlock.reward).sum = INITIAL_BLOCK_REWARD := by
  obtain ⟨start, blk, fees, chain, s', hfresh, hmine, hpass, hunknown, -, -, hbooked, -⟩ := mine_firstPass
  have hrun : transition.run (Mining.step regtestParams 0x1e) (newMining start) [.pass firstPass] = some s' :=
    (transition.run_singleton _ _).trans hpass
  have hnew : ∀ s event, transition.Takes (Mining.step regtestParams 0x1e) (newMining start) [.pass firstPass] s event →
      s.FindsNew regtestParams 0x1e event := by
    rintro s event (⟨rfl, rfl⟩ | ⟨next, -, htakes⟩)
    · intro blk' fees' chain' hmine'
      rw [hmine] at hmine'
      cases hmine'
      exact hunknown
    · cases htakes
  have hsum := (Mining.run_booked hfresh hnew hrun).2
  rw [hbooked] at hsum
  exact ⟨start, s', hfresh, hrun, hbooked, (hsum.trans (Int.zero_add _)).symm⟩

end

end cdx
