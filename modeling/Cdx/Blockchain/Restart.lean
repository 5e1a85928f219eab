import Cdx.Blockchain.ChainWork
import Cdx.Blockchain.History
import Cdx.Blockchain.SavedState

namespace cdx

section Coins

variable [Crypto]

/-- Every output script of the block has at most 100000 bytes. -/
def CBlock.ShortScripts (blk : CBlock) : Prop := ∀ tx ∈ blk.vtx, ∀ txOut ∈ tx.vout, txOut.scriptPubKey.val.length ≤ 100000

/-- The coins of a chain of loadable length with short scripts fit the file. -/
theorem replay_fits {blocks : List CBlock} {view : CCoinsView} (hreplay : replay 0 .empty blocks = .ok view)
    (hlength : blocks.length ≤ 100000000) (hscripts : ∀ blk ∈ blocks, blk.ShortScripts) :
    ∀ out coin, view.getCoin out = some coin → coin.Fits := by
  intro out coin hcoin
  obtain hempty | ⟨hlow, hhigh, tx, htx, hmade⟩ := replay_made hreplay hcoin
  · simp at hempty
  · obtain ⟨blk, hblk, htx⟩ := List.mem_flatMap.mp htx
    obtain ⟨txOut, htxOut, hscript⟩ := hmade.script
    refine ⟨?_, ?_, ?_⟩
    · rw [INT64_MIN_eq]
      omega
    · rw [INT64_MAX_eq]
      omega
    · rw [hscript]
      exact hscripts blk hblk tx htx txOut htxOut

end Coins

section Rebuild

variable [Crypto] [Memory]

/-- The index loop of `LoadFromStorage` finds the work of the chain it is given, if
    every block of it can be read. -/
theorem rebuildIndex_chainWork {params : ChainParams} (done : List CBlock) {rest : List CBlock} {storage : CBlockStorage}
    {index : Std.ExtTreeMap UInt256 CBlockIndex} (hstored : ∀ blk ∈ rest, storage.stored blk.getHash = some blk)
    (hlinked : Linked params (done ++ rest))
    (hindex : ∀ last : CBlock, done.getLast? = some last →
      ∃ entry : CBlockIndex, index[last.getHash]? = some entry ∧ entry.chainWork = chainWorkOf done) :
    ∀ last : CBlock, (done ++ rest).getLast? = some last →
      ∃ entry : CBlockIndex, (CBlockchain.rebuildIndex (rest.map CBlock.getHash) done.length storage index).1[last.getHash]? =
        some entry ∧ entry.chainWork = chainWorkOf (done ++ rest) := by
  induction rest generalizing done storage index with
  | nil =>
    rw [List.append_nil]
    exact hindex
  | cons blk rest ih =>
    rw [List.forall_mem_cons] at hstored
    rw [List.append_cons] at hlinked ⊢
    have hreads : ∀ old ∈ rest, storage.loadIndex.stored old.getHash = some old := by
      intro old hold
      rw [CBlockStorage.stored_loadIndex]
      exact hstored.2 old hold
    rw [List.map_cons, CBlockchain.rebuildIndex, CBlockStorage.readBlock_eq, hstored.1]
    simp only
    have hlength : (done ++ [blk]).length = done.length + 1 := by simp
    by_cases hfirst : done.length = 0
    · obtain rfl : done = [] := List.length_eq_zero_iff.mp hfirst
      rw [if_pos hfirst, ← hlength]
      apply ih _ hreads hlinked
      intro last hlast
      cases hlast
      refine ⟨_, (orderedMap.lookup_insert ..).trans (if_pos rfl), ?_⟩
      exact (chainWorkOf_singleton blk).symm
    · rw [if_neg hfirst, ← hlength]
      obtain ⟨prev, hprev⟩ : ∃ prev, done[done.length - 1]? = some prev := ⟨_, List.getElem?_eq_getElem (by omega)⟩
      have hheader := hlinked (done.length - 1) prev blk
        (by rw [List.append_assoc, List.getElem?_append_left (by omega), hprev])
        (by rw [Nat.sub_add_cancel (by omega), List.append_assoc, List.getElem?_append_right (le_refl _)]; simp)
      have hparent : blk.header.prevBlockHash = prev.getHash := (checkBlockHeader_some_eq_ok_iff.mp hheader).2.1
      obtain ⟨entry, hentry, hwork⟩ := hindex prev (by rw [List.getLast?_eq_getElem?, hprev])
      simp only [CBlockchain.indexAt, hparent, hentry]
      apply ih _ hreads hlinked
      intro last hlast
      rw [List.getLast?_concat] at hlast
      cases hlast
      refine ⟨_, (orderedMap.lookup_insert ..).trans (if_pos rfl), ?_⟩
      rw [chainWorkOf_snoc, ← hwork]
      rfl

/-- A node constructed over the storage comes up in the state of this one. -/
def Resumes (params : ChainParams) (storage : CBlockStorage) (bc : CBlockchain) : Prop :=
  ∃ bc', CBlockchain.init params { storage := storage } = .ok (.ok (), bc') ∧ bc'.chain.height = bc.chain.height ∧
    bc'.chain.tipHash = bc.chain.tipHash ∧ bc'.chain.byHeight = bc.chain.byHeight ∧
    bc'.chain.view = bc.chain.view ∧ bc'.chain.chainWork = bc.chain.chainWork

/-- `Init` takes the chain from the file, or starts again from the genesis block. -/
theorem init_eq_ok {params : ChainParams} {storage : CBlockStorage} {bc' : CBlockchain}
    (hinit : CBlockchain.init params { storage := storage } = .ok (.ok (), bc')) :
    ((storage.loadChainState .empty (-1) 0 []).ok = true ∧
      bc'.chain.tipHash = (storage.loadChainState .empty (-1) 0 []).tipHash ∧
      bc'.chain.byHeight = (storage.loadChainState .empty (-1) 0 []).byHeight ∧
      bc'.chain.view = (storage.loadChainState .empty (-1) 0 []).view) ∨
    ∃ g view fees, CBlockchain.minedGenesis params = some g ∧ checkBlock g 0 .empty = .ok (view, fees) ∧
      bc'.chain.tipHash = g.getHash ∧ bc'.chain.byHeight = [g.getHash] ∧ bc'.chain.view = view := by
  unfold CBlockchain.init CBlockchain.loadFromStorage at hinit
  simp only [show ({} : CCoinsView) = .empty from rfl] at hinit
  split at hinit
  next hok =>
    split at hinit
    · simp only [Except.ok.injEq, Prod.mk.injEq, true_and] at hinit
      rw [← hinit]
      exact Or.inl ⟨hok, rfl, rfl, rfl⟩
    · obtain ⟨g, view, fees, hmined, hcheck, hresult⟩ := applyGenesis_eq_ok hinit
      rw [hresult]
      exact Or.inr ⟨g, view, fees, hmined, hcheck, rfl, rfl, rfl⟩
  · obtain ⟨g, view, fees, hmined, hcheck, hresult⟩ := applyGenesis_eq_ok hinit
    rw [hresult]
    exact Or.inr ⟨g, view, fees, hmined, hcheck, rfl, rfl, rfl⟩

/-- A node never comes up with more than `LoadChainState` can load. -/
theorem Resumes.bounds {params : ChainParams} {storage : CBlockStorage} {bc : CBlockchain}
    (hresumes : Resumes params storage bc) :
    bc.chain.byHeight.length ≤ 100000000 ∧ bc.chain.view.utxo.size ≤ 1000000000 := by
  obtain ⟨bc', hinit, -, -, hbyHeight, hview, -⟩ := hresumes
  rw [← hbyHeight, ← hview]
  rcases init_eq_ok hinit with ⟨hok, -, hloaded, hcoins⟩ | ⟨g, view, fees, hmined, hcheck, -, hgenesis, hcoins⟩
  · rw [hloaded, hcoins]
    exact storage.loadChainState_bounds _ _ _ _ hok
  · obtain ⟨coinbase, txs, mid, haccepted⟩ := checkBlock_eq_ok hcheck
    have hvtx := haccepted.vtx_eq
    rw [(minedGenesis_spec hmined).1] at hvtx
    cases hvtx
    have hmid := haccepted.connected
    cases hmid
    have hsize : view.utxo.size ≤ CCoinsView.empty.utxo.size + 1 := by
      rw [haccepted.coinbase_connected.view_eq]
      exact Std.ExtTreeMap.size_insert_le
    rw [hgenesis, hcoins]
    refine ⟨by simp, hsize.trans ?_⟩
    rw [show CCoinsView.empty.utxo.size = 0 from rfl]
    omega

/-- The tip that a node comes up with is the saved one or the genesis block. -/
theorem Resumes.tipHash {params : ChainParams} {storage : CBlockStorage} {bc : CBlockchain}
    (hresumes : Resumes params storage bc) {view : CCoinsView} {height : Int} {tipHash : UInt256}
    {byHeight : List UInt256} (hdisk : storage.disk.chainstateDat = some (encodeChainState view height tipHash byHeight)) :
    bc.chain.tipHash = tipHash ∨ ∃ g, CBlockchain.minedGenesis params = some g ∧ bc.chain.tipHash = g.getHash := by
  obtain ⟨bc', hinit, -, htip, -, -, -⟩ := hresumes
  rw [← htip]
  rcases init_eq_ok hinit with ⟨-, hloaded, -, -⟩ | ⟨g, view, fees, hmined, -, hgenesis, -, -⟩
  · rw [hloaded, CBlockStorage.loadChainState_tipHash hdisk]
    exact Or.inl rfl
  · exact Or.inr ⟨g, hmined, hgenesis⟩

/-- `Init` on the file of a chain whose blocks can all be read. -/
theorem Active.resumes {params : ChainParams} {bc : CBlockchain} {blocks : List CBlock}
    (hactive : Active params bc blocks) {storage : CBlockStorage}
    (hdisk : storage.disk.chainstateDat = some (encodeChainState bc.chain.view bc.chain.height bc.chain.tipHash
      bc.chain.byHeight)) (hstored : ∀ blk ∈ blocks, storage.stored blk.getHash = some blk)
    (hlength : bc.chain.byHeight.length ≤ 100000000) (hsize : bc.chain.view.utxo.size ≤ 1000000000)
    (hscripts : ∀ blk ∈ blocks, blk.ShortScripts) (hwork : bc.chain.chainWork = chainWorkOf blocks) :
    Resumes params storage bc := by
  have hblocks : blocks.length ≤ 100000000 := by
    rw [hactive.byHeight, List.length_map] at hlength
    exact hlength
  have hheight := hactive.height
  have hload := CBlockStorage.loadChainState_of_saved hdisk (by rw [INT64_MIN_eq]; omega) (by rw [INT64_MAX_eq]; omega)
    hlength hsize (replay_fits hactive.replayed hblocks hscripts) .empty (-1) 0 []
  obtain ⟨last, hlast, htip⟩ := hactive.tip
  obtain ⟨entry, hentry, hentryWork⟩ : ∃ entry : CBlockIndex,
      (CBlockchain.rebuildIndex bc.chain.byHeight 0 storage ∅).1[bc.chain.tipHash]? = some entry ∧
        entry.chainWork = chainWorkOf blocks := by
    rw [hactive.byHeight, htip]
    exact rebuildIndex_chainWork [] hstored hactive.linked (fun prev hprev => by cases hprev) last hlast
  have hsome : (CBlockchain.rebuildIndex bc.chain.byHeight 0 storage ∅).1.isEmpty = false := by
    rw [Std.ExtTreeMap.isEmpty_eq_false_iff]
    intro hempty
    rw [hempty] at hentry
    simp at hentry
  unfold Resumes CBlockchain.init CBlockchain.loadFromStorage
  simp only [show ({} : CCoinsView) = .empty from rfl, hload, if_true, hsome, CBlockchain.indexAt, hentry]
  exact ⟨_, rfl, rfl, rfl, rfl, rfl, hentryWork.trans hwork.symm⟩

end Rebuild

section Runs

variable [Crypto] [Memory]

/-- The storage object of the node, or one newly opened on its directory. The new
    one starts from `index.dat`, which must hold what `LoadIndex` can read. -/
def Reopens (old new : CBlockStorage) : Prop :=
  new = old ∨ new = { disk := old.disk } ∧ old.index.size ≤ 100000000 ∧
    ∀ (hash : UInt256) (pos : BlockPos), old.index[hash]? = some pos → pos.Fits

/-- The block index on disk is the one in memory. -/
structure IndexSaved (s : CBlockStorage) : Prop where
  saved : s.disk.indexDat = some (CBlockStorage.encodeIndex s.index)
  current : s.loadIndex.index = s.index

omit [Crypto] in
theorem IndexSaved.loadIndex {s : CBlockStorage} (hsaved : IndexSaved s) : IndexSaved s.loadIndex := by
  refine ⟨?_, ?_⟩
  · rw [s.loadIndex_disk, hsaved.current]
    exact hsaved.saved
  · rw [CBlockStorage.loadIndex_loadIndex]

omit [Crypto] in
theorem indexSaved_of_loaded {s : CBlockStorage} (hloaded : s.loaded = true)
    (hsaved : s.disk.indexDat = some (CBlockStorage.encodeIndex s.index)) : IndexSaved s := by
  refine ⟨hsaved, ?_⟩
  rw [CBlockStorage.loadIndex_of_loaded hloaded]

/-- A storage over the same files reads the same blocks. -/
theorem IndexSaved.stored_eq {old new : CBlockStorage} (hsaved : IndexSaved old) (hreopens : Reopens old new)
    (hash : UInt256) : new.stored hash = old.stored hash := by
  rcases hreopens with rfl | ⟨rfl, hsize, hfits⟩
  · rfl
  · have hload : ({ disk := old.disk } : CBlockStorage).loadIndex =
        { disk := old.disk, loaded := true, index := old.index } := by
      have hdisk : ({ disk := old.disk } : CBlockStorage).disk.indexDat = some (CBlockStorage.encodeIndex old.index) :=
        hsaved.saved
      apply CBlockStorage.loadIndex_of_saved rfl hdisk hsize (fun key pos hpos => (hfits key pos hpos).storable)
      intro key pos hpos
      simp at hpos
    rw [CBlockStorage.stored, CBlockStorage.stored, hload]
    unfold CBlockStorage.lookup
    rw [hsaved.current, old.loadIndex_disk]

/-- The chain state file holds the chain in memory, and the recorded work is the
    work of that chain. -/
structure Persisted (bc : CBlockchain) : Prop where
  saved : bc.storage.disk.chainstateDat =
    some (encodeChainState bc.chain.view bc.chain.height bc.chain.tipHash bc.chain.byHeight)
  tracked : WorkTracked bc

/-- The block extends the active chain. -/
def Extends (params : ChainParams) (bc : CBlockchain) (blk : CBlock) : Prop := ∃ blocks, ExtendsAt params bc blk blocks

/-- What holds of a node and its files between deliveries: the file has the tip of
    some earlier chain, which is the current one or has been left behind. -/
structure Restorable (params : ChainParams) (bc : CBlockchain) (blocks : List CBlock) : Prop where
  active : Active params bc blocks
  root : ∃ g, CBlockchain.minedGenesis params = some g ∧ blocks[0]? = some g
  scripts : ∀ blk ∈ blocks, blk.ShortScripts
  index : IndexSaved bc.storage
  file : ∃ view height tipHash byHeight,
    bc.storage.disk.chainstateDat = some (encodeChainState view height tipHash byHeight) ∧
      bc.haveBlock tipHash = true ∧ (Persisted bc ∨ tipHash ≠ bc.chain.tipHash ∧ 1 < blocks.length)

/-- A node resumes over its files exactly when they are up to date and within the limits. -/
theorem Restorable.resumes_iff {params : ChainParams} {bc : CBlockchain} {blocks : List CBlock}
    (hrestorable : Restorable params bc blocks) :
    (∀ storage, Reopens bc.storage storage → Resumes params storage bc) ↔
      Persisted bc ∧ bc.chain.byHeight.length ≤ 100000000 ∧ bc.chain.view.utxo.size ≤ 1000000000 := by
  have hactive := hrestorable.active
  constructor
  · intro hall
    have hresumes := hall bc.storage (Or.inl rfl)
    refine ⟨?_, hresumes.bounds⟩
    obtain ⟨view, height, tipHash, byHeight, hdisk, -, hpersisted | ⟨hstale, hlength⟩⟩ := hrestorable.file
    · exact hpersisted
    · -- The saved tip is not the current one, and neither is the genesis block.
      rcases hresumes.tipHash hdisk with hsame | ⟨g, hmined, hsame⟩
      · exact absurd hsame.symm hstale
      · obtain ⟨g', hmined', hroot⟩ := hrestorable.root
        rw [hmined, Option.some.injEq] at hmined'
        subst hmined'
        obtain ⟨last, hlast, htip⟩ := hactive.tip
        rw [List.getLast?_eq_getElem?] at hlast
        have := hactive.index_unique hroot hlast (by rw [← hsame, htip])
        omega
  · rintro ⟨hpersisted, hlength, hsize⟩ storage hreopens
    have hdisk : storage.disk = bc.storage.disk := by
      rcases hreopens with rfl | ⟨rfl, -⟩ <;> rfl
    apply hactive.resumes
    · rw [hdisk]
      exact hpersisted.saved
    · intro blk hblk
      rw [hrestorable.index.stored_eq hreopens]
      exact hactive.stored blk hblk
    · exact hlength
    · exact hsize
    · exact hrestorable.scripts
    · exact hactive.workTracked_iff.mp hpersisted.tracked

theorem Persisted.touched {params : ChainParams} {bc bc' : CBlockchain} {blocks : List CBlock}
    (hactive : Active params bc blocks) (htouched : CBlockchain.Touched bc bc') : Persisted bc' ↔ Persisted bc := by
  have hactive' := hactive.touched htouched
  have htracked : WorkTracked bc' ↔ WorkTracked bc := by
    rw [hactive'.workTracked_iff, hactive.workTracked_iff, htouched.chain_eq]
  constructor
  · rintro ⟨hsaved, hwork⟩
    rw [htouched.disk_eq, htouched.chain_eq] at hsaved
    exact ⟨hsaved, htracked.mp hwork⟩
  · rintro ⟨hsaved, hwork⟩
    refine ⟨?_, htracked.mpr hwork⟩
    rw [htouched.disk_eq, htouched.chain_eq]
    exact hsaved

/-- `AcceptBlock` saves the chain it leaves. -/
theorem persisted_applyBlock {params : ChainParams} {bc bc' : CBlockchain} {blocks : List CBlock} {blk last : CBlock}
    {view : CCoinsView} (hactive' : Active params bc' (blocks ++ [blk]))
    (hresult : bc' = bc.touch.applyBlock blk blocks.length
      (last.indexEntry (blocks.length - 1 : Nat) (chainWorkOf blocks) (decide (blocks.length - 1 = 0))) view) :
    Persisted bc' := by
  refine ⟨?_, ?_⟩
  · rw [hresult]
    rfl
  · rw [hactive'.workTracked_iff, chainWorkOf_snoc, hresult, CBlockchain.applyBlock_chain]
    rfl

/-- Every delivery of a block with short scripts keeps the node restorable. -/
theorem Restorable.step {params : ChainParams} {bc bc' : CBlockchain} {blocks blocks' : List CBlock} {blk : CBlock}
    (hrestorable : Restorable params bc blocks) (hblk : blk.ShortScripts)
    (hstep : ChainStep params blk bc blocks bc' blocks') : Restorable params bc' blocks' := by
  have hactive' := hrestorable.active.step hstep
  obtain ⟨g, hmined, hroot⟩ := hrestorable.root
  obtain ⟨view₀, height₀, tipHash₀, byHeight₀, hdisk, hindexed, hfile⟩ := hrestorable.file
  have hpos := List.length_pos_of_ne_nil hrestorable.active.ne_nil
  cases hstep with
  | kept htouched =>
    refine ⟨hactive', ⟨g, hmined, hroot⟩, hrestorable.scripts, ?_, view₀, height₀, tipHash₀, byHeight₀, ?_, ?_, ?_⟩
    · rcases htouched with rfl | rfl
      · exact hrestorable.index
      · exact hrestorable.index.loadIndex
    · rw [htouched.disk_eq]
      exact hdisk
    · rw [CBlockchain.haveBlock, htouched.chain_eq]
      exact hindexed
    · rw [Persisted.touched hrestorable.active htouched, htouched.chain_eq]
      exact hfile
  | extended hunknown hlast hheader hbits hcheck hresult =>
    refine ⟨hactive', ⟨g, hmined, ?_⟩, ?_, ?_, _, _, _, _, (persisted_applyBlock hactive' hresult).saved, ?_,
      Or.inl (persisted_applyBlock hactive' hresult)⟩
    · rw [List.getElem?_append_left hpos, hroot]
    · intro old hold
      rcases List.mem_append.mp hold with hold | hold
      · exact hrestorable.scripts old hold
      · cases List.mem_singleton.mp hold
        exact hblk
    · rw [hresult, CBlockchain.applyBlock_storage, CBlockchain.touch_storage]
      exact indexSaved_of_loaded bc.storage.loadIndex_loaded rfl
    · rw [hresult, CBlockchain.haveBlock, CBlockchain.applyBlock_chain]
      exact Std.ExtTreeMap.contains_insert_self
  | @reorganised forkHeight parent view hunknown hparent hbelow hgenesis hheader hreplay hwork hresult =>
    have hchain := hrestorable.active.replaceChain_chain hparent (checkBlockHeader_some_eq_ok_iff.mp hheader).2.1 view
    have hstorage := congrArg CBlockchain.storage hresult
    rw [CBlockchain.replaceChain_storage, CBlockchain.touch_storage] at hstorage
    have hkept : bc'.haveBlock tipHash₀ = true := by
      rw [hresult, CBlockchain.haveBlock, hchain]
      rw [CBlockchain.haveBlock] at hindexed
      rw [Std.ExtTreeMap.contains_insert, hindexed, Bool.or_true]
    refine ⟨hactive', ⟨g, hmined, ?_⟩, ?_, ?_, view₀, height₀, tipHash₀, byHeight₀, ?_, hkept, Or.inr ⟨?_, ?_⟩⟩
    · rw [List.getElem?_append_left (by rw [List.length_take]; omega), List.getElem?_take_of_lt (by omega), hroot]
    · intro old hold
      rcases List.mem_append.mp hold with hold | hold
      · exact hrestorable.scripts old (List.mem_of_mem_take hold)
      · cases List.mem_singleton.mp hold
        exact hblk
    · rw [hstorage]
      exact indexSaved_of_loaded bc.storage.loadIndex_loaded rfl
    · rw [hstorage, ← hdisk, ← bc.storage.loadIndex_disk]
      rfl
    · -- The saved tip was indexed before, and the new tip was not.
      rw [hresult, hchain]
      rintro rfl
      rw [hunknown] at hindexed
      cases hindexed
    · rw [List.length_append, List.length_take, List.length_singleton]
      omega

theorem Restorable.deliver {params : ChainParams} {bc bc' : CBlockchain} {blk : CBlock}
    (hrestorable : ∃ blocks, Restorable params bc blocks) (hblk : blk.ShortScripts)
    (hdeliver : CBlockchain.deliver params bc blk = some bc') : ∃ blocks, Restorable params bc' blocks := by
  obtain ⟨blocks, hrestorable⟩ := hrestorable
  obtain ⟨blocks', hstep, -⟩ := hrestorable.active.deliver hdeliver
  exact ⟨blocks', hrestorable.step hblk hstep⟩

/-- An extension leaves the files up to date. -/
theorem Restorable.persisted_of_extends {params : ChainParams} {bc bc' : CBlockchain} {blocks : List CBlock}
    {blk : CBlock} (hrestorable : Restorable params bc blocks) (hextends : Extends params bc blk)
    (hdeliver : CBlockchain.deliver params bc blk = some bc') : Persisted bc' := by
  have hactive := hrestorable.active
  obtain ⟨blocks', hextends⟩ := hextends
  obtain rfl : blocks = blocks' := Option.some.inj (hactive.readChain.symm.trans hextends.active)
  obtain ⟨last, hlast, -⟩ := hactive.tip
  obtain ⟨view, fees, -, hresult⟩ := hactive.deliver_extension hextends hlast
  rw [hdeliver, Option.some.injEq] at hresult
  exact persisted_applyBlock (hactive.joined (Or.inl hextends) hdeliver).2.2 hresult

/-- A reorganisation leaves the file of the chain it replaces. -/
theorem Restorable.not_persisted_of_reorganises {params : ChainParams} {bc bc' : CBlockchain} {blocks : List CBlock}
    {blk : CBlock} (hrestorable : Restorable params bc blocks) (hreorganises : Reorganises params bc blk)
    (hdeliver : CBlockchain.deliver params bc blk = some bc') : ¬ Persisted bc' := by
  have hactive := hrestorable.active
  obtain ⟨blocks', forkHeight, hfork⟩ := hreorganises
  obtain rfl : blocks = blocks' := Option.some.inj (hactive.readChain.symm.trans hfork.active)
  obtain ⟨view, hreplay, hresult⟩ := hactive.deliver_fork hfork
  rw [hdeliver, Option.some.injEq] at hresult
  obtain ⟨view₀, height₀, tipHash₀, byHeight₀, hdisk, hindexed, -⟩ := hrestorable.file
  intro hpersisted
  have hsaved := hpersisted.saved
  have hstorage : bc'.storage.disk.chainstateDat = bc.storage.disk.chainstateDat := by
    rw [hresult, CBlockchain.replaceChain_storage, CBlockchain.touch_storage, ← bc.storage.loadIndex_disk]
    rfl
  rw [hstorage, hdisk, Option.some.injEq] at hsaved
  have htip := tipHash_of_encodeChainState hsaved
  rw [hresult] at htip
  change tipHash₀ = blk.getHash at htip
  rw [htip, hfork.unknown] at hindexed
  cases hindexed

/-- A fresh node is restorable and its files are up to date. -/
theorem fresh_restorable {params : ChainParams} {start : CBlockchain} (hfresh : CBlockchain.fresh params = some start) :
    (∃ blocks, Restorable params start blocks) ∧ Persisted start := by
  obtain ⟨g, view, fees, hmined, hcheck, hstart, hactive⟩ := fresh_active hfresh
  have hvtx := (minedGenesis_spec hmined).1
  have hpersisted : Persisted start := by
    refine ⟨?_, ?_⟩
    · rw [hstart]
      rfl
    · rw [hactive.workTracked_iff, hstart, chainWorkOf_singleton]
      rfl
  refine ⟨⟨[g], hactive, ⟨g, hmined, rfl⟩, ?_, ⟨?_, ?_⟩, _, _, _, _, hpersisted.saved, ?_, Or.inl hpersisted⟩, hpersisted⟩
  · intro blk hblk tx htx txOut htxOut
    cases List.mem_singleton.mp hblk
    rw [hvtx, List.mem_singleton] at htx
    subst htx
    cases List.mem_singleton.mp htxOut
    exact show 1 ≤ 100000 by decide
  · rw [hstart]
    rfl
  · rw [hstart, loadIndex_genesisState (length_serializeGenesis hvtx)]
    rfl
  · rw [hstart]
    exact Std.ExtTreeMap.contains_insert_self

/-- A node constructed over the files at the end of a run resumes the chain in memory
    exactly when every reorganisation of the run was followed by an extension and
    the chain and its coins are within the limits of `LoadChainState`. -/
theorem run_resumes_iff {params : ChainParams} {start final : CBlockchain} {events : List CBlock}
    (hscripts : ∀ blk ∈ events, blk.ShortScripts) (hfresh : CBlockchain.fresh params = some start)
    (hrun : transition.run (CBlockchain.deliver params) start events = some final) :
    (∀ storage, Reopens final.storage storage → Resumes params storage final) ↔
      transition.Followed (CBlockchain.deliver params) (Reorganises params) (Extends params) start events ∧
        final.chain.byHeight.length ≤ 100000000 ∧ final.chain.view.utxo.size ≤ 1000000000 := by
  obtain ⟨hstart, hpersisted⟩ := fresh_restorable hfresh
  have hstep : ∀ bc blk bc', blk ∈ events → (∃ blocks, Restorable params bc blocks) →
      CBlockchain.deliver params bc blk = some bc' → ∃ blocks, Restorable params bc' blocks :=
    fun bc blk bc' hblk hbc hdeliver => Restorable.deliver hbc (hscripts blk hblk) hdeliver
  obtain ⟨blocks, hrestorable⟩ := transition.run_invariant hstep hstart hrun
  rw [hrestorable.resumes_iff]
  refine and_congr_left' ?_
  apply transition.final_iff_followed hstep _ _ _ hstart hpersisted hrun
  · exact fun bc blk bc' _ ⟨_, hbc⟩ hextends hdeliver => hbc.persisted_of_extends hextends hdeliver
  · exact fun bc blk bc' _ ⟨_, hbc⟩ hreorganises hdeliver => hbc.not_persisted_of_reorganises hreorganises hdeliver
  · rintro bc blk bc' - ⟨blocks, hbc⟩ hnotExtends hnotReorganises hdeliver
    rcases hbc.active.deliver_joins hdeliver with htouched | ⟨base, hextends | ⟨blocks', forkHeight, hfork, -⟩⟩
    · exact Persisted.touched hbc.active htouched
    · exact absurd ⟨base, hextends⟩ hnotExtends
    · exact absurd ⟨blocks', forkHeight, hfork⟩ hnotReorganises

omit [Memory] in
/-- The blocks of the chain tests pay to a script of one byte. -/
theorem shortScripts_regtestBlock (prev : UInt256) (height : Nat) (timestamp bits nonce : UInt32) :
    (regtestBlock prev [regtestCoinbase height] timestamp bits nonce).ShortScripts := by
  intro tx htx txOut htxOut
  cases List.mem_singleton.mp htx
  cases List.mem_singleton.mp htxOut
  exact show 1 ≤ 100000 by decide

end Runs

section

attribute [local instance] toolCrypto zeroMemory

theorem run_resumes_first : ∃ start final, CBlockchain.fresh regtestParams = some start ∧
    transition.run (CBlockchain.deliver regtestParams) start [firstBlock] = some final ∧
    ∀ storage, Reopens final.storage storage → Resumes regtestParams storage final := by
  have hevaluated : (regtestAfter [firstBlock]).map (fun bc => (bc.chain.byHeight.length, bc.chain.view.utxo.size)) =
      some (2, 2) := by
    rw [← tableCrypto_eq digests_right]
    decide +kernel
  obtain ⟨final, hfinal, hsizes⟩ := Option.map_eq_some_iff.mp hevaluated
  obtain ⟨start, hfresh, hrun⟩ := run_of_regtestAfter hfinal
  have hlength : final.chain.byHeight.length = 2 := congrArg Prod.fst hsizes
  have hsize : final.chain.view.utxo.size = 2 := congrArg Prod.snd hsizes
  have hscripts : ∀ blk ∈ [firstBlock], blk.ShortScripts := by
    intro blk hblk
    cases List.mem_singleton.mp hblk
    exact shortScripts_regtestBlock _ 1 _ _ _
  refine ⟨start, final, hfresh, hrun, (run_resumes_iff hscripts hfresh hrun).mpr ⟨?_, by omega, by omega⟩⟩
  intro next hnext
  exact ⟨fun hreorganises => absurd hreorganises (fresh_not_reorganises hfresh firstBlock), trivial⟩

/-- A restart after a reorganisation goes back to the chain that the node had left. -/
theorem resumes_fails_after_reorganisation : (∀ blk ∈ [firstBlock, heavyBlock], blk.ShortScripts) ∧
    ∃ bc, regtestAfter [firstBlock, heavyBlock] = some bc ∧ ¬ Resumes regtestParams bc.storage bc := by
  have hevaluated : (regtestAfter [firstBlock, heavyBlock]).map (fun bc =>
      (CBlockchain.init regtestParams { storage := bc.storage }).toOption.map fun result =>
        decide (result.2.chain.tipHash = bc.chain.tipHash)) = some (some false) := by
    rw [← tableCrypto_eq digests_right]
    decide +kernel
  obtain ⟨bc, hbc, hrestarted⟩ := Option.map_eq_some_iff.mp hevaluated
  refine ⟨?_, bc, hbc, ?_⟩
  · intro blk hblk
    rcases List.mem_cons.mp hblk with rfl | hblk
    · exact shortScripts_regtestBlock _ 1 _ _ _
    · cases List.mem_singleton.mp hblk
      exact shortScripts_regtestBlock _ 1 _ _ _
  · rintro ⟨bc', hinit, -, htip, -⟩
    rw [hinit] at hrestarted
    exact absurd htip (of_decide_eq_false (Option.some.inj hrestarted))

end

end cdx
