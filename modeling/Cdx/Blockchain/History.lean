import Cdx.Blockchain.Active
import Cdx.Consensus.Transition
import Cdx.Lib.Ledger

namespace cdx

/-- The outpoints that hold a coin. -/
def CCoinsView.unspent (view : CCoinsView) : Set COutPoint := {out | ∃ coin, view.getCoin out = some coin}

theorem CCoinsView.unspent_empty : CCoinsView.empty.unspent = ∅ := by
  ext out
  simp [unspent]

theorem CCoinsView.getCoin_eq_none {view : CCoinsView} {out : COutPoint} (hout : out ∉ view.unspent) :
    view.getCoin out = none := by
  rw [Option.eq_none_iff_forall_ne_some]
  exact fun coin hcoin => hout ⟨coin, hcoin⟩

variable [Crypto]

/-- The transaction as an entry of a ledger, with the outputs that `CheckBlock` makes of it. -/
def CTransaction.entry (tx : CTransaction) : ledger.Entry UInt256 COutPoint where
  id := getTxID tx
  ins := if tx.isCoinBase then [] else tx.vin.map CTxIn.prevout
  outs := if tx.isCoinBase then {⟨getTxID tx, 0⟩} else {out | ∃ txOut, tx.Creates out txOut}

theorem CTransaction.entry_owner (tx : CTransaction) : ∀ out ∈ tx.entry.outs, out.hash = tx.entry.id := by
  intro out hout
  unfold entry at hout ⊢
  simp only at hout ⊢
  split at hout
  · cases hout
    rfl
  · obtain ⟨txOut, hcreates⟩ := hout
    exact hcreates.1

/-- A list of transactions, in the order in which they were connected, accounts for
    the coins of the view. -/
def SoundHistory (txs : List CTransaction) (view : CCoinsView) : Prop :=
  ledger.Sound COutPoint.hash (txs.map CTransaction.entry) view.unspent

theorem map_id_entry (txs : List CTransaction) : (txs.map CTransaction.entry).map ledger.Entry.id = txs.map getTxID := by
  rw [List.map_map]
  rfl

theorem soundHistory_nil : SoundHistory [] .empty := by
  rw [SoundHistory, CCoinsView.unspent_empty]
  exact ledger.sound_nil _

/-- The first pass of `CheckBlock` does to the coins what the ledger does. -/
theorem ConnectedTx.unspent_eq {height fees fees' : Int} {tx : CTransaction} {view view' : CCoinsView}
    (hconnected : ConnectedTx height tx view fees view' fees') :
    view'.unspent = ledger.apply view.unspent tx.entry := by
  ext out
  simp only [CCoinsView.unspent, ledger.apply, CTransaction.entry, hconnected.notCoinBase, Bool.false_eq_true, if_false,
    Set.mem_union, Set.mem_sdiff, Set.mem_ofPred_eq]
  rcases hconnected.getCoin out with ⟨txOut, hcreates, hcoin⟩ | ⟨hnone, ⟨hspends, hcoin⟩ | ⟨hspends, hcoin⟩⟩
  · rw [hcoin]
    exact ⟨fun _ => Or.inr ⟨txOut, hcreates⟩, fun _ => ⟨_, rfl⟩⟩
  · rw [hcoin]
    constructor
    · rintro ⟨coin, hsome⟩
      cases hsome
    · rintro (⟨-, hkept⟩ | ⟨txOut, hcreates⟩)
      · exact absurd hspends.2 hkept
      · exact absurd hcreates (hnone txOut)
  · rw [hcoin]
    constructor
    · exact fun hsome => Or.inl ⟨hsome, fun hin => hspends ⟨hconnected.notCoinBase, hin⟩⟩
    · rintro (⟨hsome, -⟩ | ⟨txOut, hcreates⟩)
      · exact hsome
      · exact absurd hcreates (hnone txOut)

theorem ConnectedTx.ins_found {height fees fees' : Int} {tx : CTransaction} {view view' : CCoinsView}
    (hconnected : ConnectedTx height tx view fees view' fees') : ∀ out ∈ tx.entry.ins, out ∈ view.unspent := by
  intro out hout
  simp only [CTransaction.entry, hconnected.notCoinBase, Bool.false_eq_true, if_false] at hout
  obtain ⟨i, hi, rfl⟩ := List.mem_map.mp hout
  exact hconnected.input_found hi

theorem ConnectedTx.sound {height fees fees' : Int} {tx : CTransaction} {view view' : CCoinsView}
    (hconnected : ConnectedTx height tx view fees view' fees') {txs : List CTransaction} (hsound : SoundHistory txs view)
    (hfresh : getTxID tx ∉ txs.map getTxID) : SoundHistory (txs ++ [tx]) view' := by
  rw [SoundHistory, hconnected.unspent_eq, List.map_append]
  apply ledger.Sound.step hsound
  · simp only [CTransaction.entry, hconnected.notCoinBase, Bool.false_eq_true, if_false]
    exact hconnected.wellFormed.inputs_nodup
  · exact hconnected.ins_found
  · exact tx.entry_owner
  · rw [map_id_entry]
    exact hfresh

/-- A connected transaction is not one of those before it: their inputs are gone. -/
theorem ConnectedTx.id_fresh {height fees fees' : Int} {tx : CTransaction} {view view' : CCoinsView}
    (hconnected : ConnectedTx height tx view fees view' fees') {txs : List CTransaction} (hsound : SoundHistory txs view)
    (hinjective : ∀ old ∈ txs, getTxID old = getTxID tx → old = tx) : getTxID tx ∉ txs.map getTxID := by
  rw [← map_id_entry]
  change tx.entry.id ∉ _
  apply ledger.Sound.id_fresh hsound
  · simp only [CTransaction.entry, hconnected.notCoinBase, Bool.false_eq_true, if_false]
    exact fun hnil => hconnected.wellFormed.vin_ne_nil (List.map_eq_nil_iff.mp hnil)
  · exact hconnected.ins_found
  · intro old hold hid
    obtain ⟨oldTx, holdTx, rfl⟩ := List.mem_map.mp hold
    rw [hinjective oldTx holdTx hid]

theorem connectTxs_sound {height fees fees' : Int} {before txs : List CTransaction} {view view' : CCoinsView}
    (hconnect : connectTxs height txs view fees = .ok (view', fees')) (hsound : SoundHistory before view)
    (hids : ((before ++ txs).map getTxID).Nodup) : SoundHistory (before ++ txs) view' := by
  induction txs generalizing before view fees with
  | nil =>
    cases hconnect
    rwa [List.append_nil]
  | cons tx rest ih =>
    obtain ⟨mid, midFees, hfirst, hrest⟩ := connectTxs_cons_eq_ok hconnect
    have hfresh : getTxID tx ∉ before.map getTxID := by
      intro hseen
      rw [List.map_append, List.map_cons, List.nodup_append] at hids
      exact hids.2.2 _ hseen _ List.mem_cons_self rfl
    rw [List.append_cons] at hids ⊢
    exact ih hrest (hfirst.sound hsound hfresh) hids

/-- Without collisions the first pass connects only transactions that are new. -/
theorem connectTxs_nodup {height fees fees' : Int} {before txs : List CTransaction} {view view' : CCoinsView}
    (hconnect : connectTxs height txs view fees = .ok (view', fees')) (hsound : SoundHistory before view)
    (hinjective : ∀ a ∈ before ++ txs, ∀ b ∈ before ++ txs, getTxID a = getTxID b → a = b) :
    ((before ++ txs).map getTxID).Nodup := by
  induction txs generalizing before view fees with
  | nil =>
    rw [List.append_nil, ← map_id_entry]
    exact hsound.ids
  | cons tx rest ih =>
    obtain ⟨mid, midFees, hfirst, hrest⟩ := connectTxs_cons_eq_ok hconnect
    have hfresh := hfirst.id_fresh hsound fun old hold =>
      hinjective old (List.mem_append_left _ hold) tx (List.mem_append_right _ List.mem_cons_self)
    rw [List.append_cons] at hinjective ⊢
    exact ih hrest (hfirst.sound hsound hfresh) hinjective

section Blocks

variable {blk : CBlock} {height fees : Int} {view view' mid : CCoinsView} {coinbase : CTransaction}
  {txs before : List CTransaction}

/-- Both passes of `CheckBlock`: the coinbase comes last. -/
theorem AcceptedBlock.sound (haccepted : AcceptedBlock blk height view view' coinbase txs mid fees)
    (hsound : SoundHistory before view) (hids : ((before ++ txs ++ [coinbase]).map getTxID).Nodup) :
    SoundHistory (before ++ txs ++ [coinbase]) view' := by
  rw [List.map_append, List.nodup_append] at hids
  have hmid := connectTxs_sound haccepted.connected hsound hids.1
  have hunspent : view'.unspent = ledger.apply mid.unspent coinbase.entry := by
    ext out
    simp only [CCoinsView.unspent, ledger.apply, CTransaction.entry, haccepted.coinbase_first, if_true, haccepted.getCoin,
      Set.mem_union, Set.mem_sdiff, Set.mem_ofPred_eq, List.not_mem_nil, not_false_eq_true, and_true,
      Set.mem_singleton_iff]
    by_cases hout : out = ⟨getTxID coinbase, 0⟩
    · rw [if_pos hout]
      exact ⟨fun _ => Or.inr hout, fun _ => ⟨_, rfl⟩⟩
    · rw [if_neg hout]
      exact ⟨Or.inl, fun h => h.resolve_right hout⟩
  rw [SoundHistory, hunspent, List.map_append]
  have hins : coinbase.entry.ins = [] := by simp [CTransaction.entry, haccepted.coinbase_first]
  apply ledger.Sound.step hmid
  · rw [hins]
    exact List.nodup_nil
  · simp [hins]
  · exact coinbase.entry_owner
  · rw [map_id_entry]
    exact fun hseen => hids.2.2 _ hseen _ List.mem_cons_self rfl

/-- Every `AddCoin` of the two passes of `CheckBlock` finds its outpoint empty. -/
structure AddsFresh (blk : CBlock) (height : Int) (view : CCoinsView) : Prop where
  outputs : ∀ coinbase pre tx post before fees, blk.vtx = coinbase :: (pre ++ tx :: post) →
    connectTxs height pre view 0 = .ok (before, fees) →
      ∀ out txOut, tx.Creates out txOut → (spendAll tx.vin before).getCoin out = none
  coinbase : ∀ coinbase txs mid fees, blk.vtx = coinbase :: txs → connectTxs height txs view 0 = .ok (mid, fees) →
    mid.getCoin ⟨getTxID coinbase, 0⟩ = none

theorem AcceptedBlock.addsFresh (haccepted : AcceptedBlock blk height view view' coinbase txs mid fees)
    (hsound : SoundHistory before view) (hids : ((before ++ txs ++ [coinbase]).map getTxID).Nodup) :
    AddsFresh blk height view := by
  rw [List.map_append, List.nodup_append] at hids
  refine ⟨?_, ?_⟩
  · intro coinbase' pre tx post view₁ fees₁ hvtx hpre out txOut hcreates
    rw [haccepted.vtx_eq] at hvtx
    cases hvtx
    have hinitial : ((before ++ pre).map getTxID ++ (tx :: post).map getTxID).Nodup := by
      rw [← List.map_append, List.append_assoc]
      exact hids.1
    rw [List.nodup_append] at hinitial
    have hnew := (connectTxs_sound hpre hsound hinitial.1).outs_new tx.entry_owner (by
      rw [map_id_entry]
      exact fun hseen => hinitial.2.2 _ hseen _ List.mem_cons_self rfl)
    have hnotCoinBase := connectTxs_notCoinBase haccepted.connected tx (by simp)
    have hout : out ∈ tx.entry.outs := by
      rw [CTransaction.entry, hnotCoinBase]
      exact ⟨txOut, hcreates⟩
    rw [getCoin_spendAll, CCoinsView.getCoin_eq_none (hnew out hout).1, ite_self]
  · intro coinbase' txs' mid' fees' hvtx hconnect
    rw [haccepted.vtx_eq] at hvtx
    cases hvtx
    have hnew := (connectTxs_sound hconnect hsound hids.1).outs_new coinbase.entry_owner (by
      rw [map_id_entry]
      exact fun hseen => hids.2.2 _ hseen _ List.mem_cons_self rfl)
    have hout : ⟨getTxID coinbase, 0⟩ ∈ coinbase.entry.outs := by
      rw [CTransaction.entry, haccepted.coinbase_first]
      exact Set.mem_singleton _
    exact CCoinsView.getCoin_eq_none (hnew _ hout).1

/-- Without collisions only the coinbase of an accepted block can have an old id. -/
theorem AcceptedBlock.nodup_iff (haccepted : AcceptedBlock blk height view view' coinbase txs mid fees)
    (hsound : SoundHistory before view)
    (hinjective : ∀ a ∈ before ++ txs ++ [coinbase], ∀ b ∈ before ++ txs ++ [coinbase], getTxID a = getTxID b → a = b) :
    ((before ++ txs ++ [coinbase]).map getTxID).Nodup ↔ getTxID coinbase ∉ before.map getTxID := by
  have hconnected := connectTxs_nodup haccepted.connected hsound fun a ha b hb =>
    hinjective a (List.mem_append_left _ ha) b (List.mem_append_left _ hb)
  have hothers : getTxID coinbase ∉ txs.map getTxID := by
    intro hseen
    obtain ⟨tx, htx, hid⟩ := List.mem_map.mp hseen
    have hsame := hinjective tx (by simp [htx]) coinbase (by simp) hid
    have hflag := connectTxs_notCoinBase haccepted.connected tx htx
    rw [hsame, haccepted.coinbase_first] at hflag
    cases hflag
  rw [List.map_append, List.nodup_append]
  constructor
  · rintro ⟨-, -, hdisjoint⟩ hseen
    rw [List.map_append] at hdisjoint
    exact hdisjoint _ (List.mem_append_left _ hseen) _ List.mem_cons_self rfl
  · intro hnew
    refine ⟨hconnected, List.nodup_singleton _, ?_⟩
    rintro id hid _ hlast rfl
    rw [List.map_singleton, List.mem_singleton] at hlast
    subst hlast
    rw [List.map_append] at hid
    rcases List.mem_append.mp hid with hid | hid
    · exact hnew hid
    · exact hothers hid

end Blocks

/-- The transactions of a list of blocks, in the order in which `CheckBlock` connects them. -/
def history (blocks : List CBlock) : List CTransaction := blocks.flatMap fun blk => blk.vtx.tail ++ blk.vtx.take 1

omit [Crypto] in
theorem history_perm (blocks : List CBlock) : (history blocks).Perm (blocks.flatMap CBlock.vtx) := by
  apply List.Perm.flatMap_left
  intro blk _
  cases blk.vtx with
  | nil => exact List.Perm.nil
  | cons coinbase txs => exact List.perm_append_comm

omit [Crypto] in
theorem history_snoc (blocks : List CBlock) {blk : CBlock} {coinbase : CTransaction} {txs : List CTransaction}
    (hvtx : blk.vtx = coinbase :: txs) : history (blocks ++ [blk]) = history blocks ++ txs ++ [coinbase] := by
  simp [history, hvtx]

theorem nodup_history_iff (blocks : List CBlock) :
    ((history blocks).map getTxID).Nodup ↔ ((blocks.flatMap CBlock.vtx).map getTxID).Nodup :=
  ((history_perm blocks).map getTxID).nodup_iff

/-- What the ledger spends over a list of blocks is what the blocks spend. -/
theorem nodup_spends_iff (blocks : List CBlock) :
    (((history blocks).map CTransaction.entry).flatMap ledger.Entry.ins).Nodup ↔
      (blocks.flatMap CBlock.spends).Nodup := by
  have hblock : ∀ txs : List CTransaction, (txs.map CTransaction.entry).flatMap ledger.Entry.ins =
      (txs.filter fun tx => !tx.isCoinBase).flatMap fun tx => tx.vin.map CTxIn.prevout := by
    intro txs
    induction txs with
    | nil => rfl
    | cons tx rest ih =>
      rw [List.map_cons, List.flatMap_cons, ih]
      cases hcoinbase : tx.isCoinBase <;> simp [CTransaction.entry, hcoinbase]
  have hperm : (((history blocks).map CTransaction.entry).flatMap ledger.Entry.ins).Perm
      (blocks.flatMap CBlock.spends) := by
    refine (((history_perm blocks).map CTransaction.entry).flatMap_right ledger.Entry.ins).trans ?_
    rw [hblock, List.filter_flatMap, List.flatMap_assoc]
    exact List.Perm.refl _
  exact hperm.nodup_iff

/-- A chain whose transactions have ids of their own accounts for its coins. -/
theorem replay_sound {blocks : List CBlock} {view : CCoinsView} (hreplay : replay 0 .empty blocks = .ok view)
    (hids : ((history blocks).map getTxID).Nodup) : SoundHistory (history blocks) view := by
  induction blocks using List.reverseRecOn generalizing view with
  | nil =>
    cases hreplay
    exact soundHistory_nil
  | append_singleton blocks blk ih =>
    obtain ⟨mid, hmid, hlast⟩ := replay_append_eq_ok hreplay
    obtain ⟨fees, hcheck⟩ := replay_singleton_eq_ok_iff.mp hlast
    obtain ⟨coinbase, txs, mid', haccepted⟩ := checkBlock_eq_ok hcheck
    rw [history_snoc blocks haccepted.vtx_eq] at hids ⊢
    refine haccepted.sound (ih hmid ?_) hids
    rw [List.append_assoc, List.map_append] at hids
    exact hids.of_append_left

/-- No two transactions of the chain have the same id; every coin the chain adds goes
    to an empty outpoint, and no outpoint is spent twice along it. -/
structure UniqueIds (blocks : List CBlock) : Prop where
  ids : ((blocks.flatMap CBlock.vtx).map getTxID).Nodup
  fresh : ∀ pre blk post view, blocks = pre ++ blk :: post → replay 0 .empty pre = .ok view →
    AddsFresh blk pre.length view
  once : (blocks.flatMap CBlock.spends).Nodup

/-- In a chain that replays, distinct ids are all it takes. -/
theorem uniqueIds_iff {blocks : List CBlock} {view : CCoinsView} (hreplay : replay 0 .empty blocks = .ok view) :
    UniqueIds blocks ↔ ((history blocks).map getTxID).Nodup := by
  constructor
  · intro hunique
    exact (nodup_history_iff blocks).mpr hunique.ids
  · intro hids
    refine ⟨(nodup_history_iff blocks).mp hids, ?_, (nodup_spends_iff blocks).mp (replay_sound hreplay hids).once⟩
    rintro pre blk post before rfl hpre
    rw [List.append_cons] at hreplay hids
    obtain ⟨after, hafter, -⟩ := replay_append_eq_ok hreplay
    obtain ⟨before', hbefore, hlast⟩ := replay_append_eq_ok hafter
    rw [hpre] at hbefore
    cases hbefore
    obtain ⟨fees, hcheck⟩ := replay_singleton_eq_ok_iff.mp hlast
    rw [Nat.zero_add] at hcheck
    obtain ⟨coinbase, txs, mid, haccepted⟩ := checkBlock_eq_ok hcheck
    have hsplit : history (pre ++ [blk] ++ post) = history pre ++ txs ++ [coinbase] ++ history post := by
      rw [← history_snoc pre haccepted.vtx_eq]
      exact List.flatMap_append
    rw [hsplit, List.map_append] at hids
    have hchain := hids.of_append_left
    apply haccepted.addsFresh (replay_sound hpre ?_) hchain
    rw [List.append_assoc, List.map_append] at hchain
    exact hchain.of_append_left

/-- A chain without repeated ids has none below any height. -/
theorem UniqueIds.of_prefix {blocks base : List CBlock} {view : CCoinsView} (hunique : UniqueIds blocks)
    (hinitial : base <+: blocks) (hreplay : replay 0 .empty base = .ok view) : UniqueIds base := by
  obtain ⟨rest, rfl⟩ := hinitial
  have hids := hunique.ids
  rw [List.flatMap_append, List.map_append] at hids
  exact (uniqueIds_iff hreplay).mpr ((nodup_history_iff base).mpr hids.of_append_left)

/-- The coinbase of the block has an id that no transaction of the list has. -/
def NewCoinbase (blk : CBlock) (base : List CBlock) : Prop :=
  ∀ coinbase txs, blk.vtx = coinbase :: txs → getTxID coinbase ∉ (base.flatMap CBlock.vtx).map getTxID

/-- Without collisions one more block keeps the ids apart exactly when its coinbase is new. -/
theorem UniqueIds.snoc_iff {base : List CBlock} {blk : CBlock} {view : CCoinsView} (hunique : UniqueIds base)
    (hreplay : replay 0 .empty (base ++ [blk]) = .ok view)
    (hinjective : ∀ a ∈ (base ++ [blk]).flatMap CBlock.vtx, ∀ b ∈ (base ++ [blk]).flatMap CBlock.vtx,
      getTxID a = getTxID b → a = b) : UniqueIds (base ++ [blk]) ↔ NewCoinbase blk base := by
  obtain ⟨mid, hmid, hlast⟩ := replay_append_eq_ok hreplay
  obtain ⟨fees, hcheck⟩ := replay_singleton_eq_ok_iff.mp hlast
  obtain ⟨coinbase, txs, mid', haccepted⟩ := checkBlock_eq_ok hcheck
  have hsound := replay_sound hmid ((uniqueIds_iff hmid).mp hunique)
  have hmem : ∀ {tx}, tx ∈ history base ++ txs ++ [coinbase] → tx ∈ (base ++ [blk]).flatMap CBlock.vtx := by
    intro tx htx
    rw [← history_snoc base haccepted.vtx_eq] at htx
    exact (history_perm _).mem_iff.mp htx
  have hbase : ∀ id, id ∈ (history base).map getTxID ↔ id ∈ (base.flatMap CBlock.vtx).map getTxID :=
    fun id => ((history_perm base).map getTxID).mem_iff
  rw [uniqueIds_iff hreplay, history_snoc base haccepted.vtx_eq,
    haccepted.nodup_iff hsound fun a ha b hb => hinjective a (hmem ha) b (hmem hb), hbase]
  constructor
  · intro hnew coinbase' txs' hvtx
    rw [haccepted.vtx_eq] at hvtx
    cases hvtx
    exact hnew
  · exact fun hnew => hnew coinbase txs haccepted.vtx_eq

theorem replay_wellFormed {h : Nat} {blocks : List CBlock} {view view' : CCoinsView}
    (hreplay : replay h view blocks = .ok view') : ∀ tx ∈ blocks.flatMap CBlock.vtx, WellFormed tx := by
  induction blocks generalizing h view with
  | nil => simp
  | cons blk rest ih =>
    obtain ⟨⟨mid, fees⟩, hcheck, hrest⟩ := bind_eq_ok_iff.mp hreplay
    obtain ⟨coinbase, txs, mid', haccepted⟩ := checkBlock_eq_ok hcheck
    intro tx htx
    rw [List.flatMap_cons, List.mem_append] at htx
    rcases htx with htx | htx
    · exact haccepted.wellFormed tx htx
    · exact ih hrest tx htx

end cdx
