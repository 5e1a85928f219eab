import Cdx.Blockchain.Connect
import Cdx.Blockchain.History

namespace cdx

/-- The transactions of the genesis block and of the delivered blocks. -/
def occurring (events : List CBlock) : Set CTransaction := {tx | tx = genesisTx ∨ ∃ blk ∈ events, tx ∈ blk.vtx}

section Ids

variable [Crypto]

/-- The block is the genesis block of the network or was delivered. -/
def Arrived (params : ChainParams) (events : List CBlock) (blk : CBlock) : Prop :=
  CBlockchain.minedGenesis params = some blk ∨ blk ∈ events

theorem Arrived.occurring {params : ChainParams} {events : List CBlock} {blk : CBlock}
    (harrived : Arrived params events blk) {tx : CTransaction} (htx : tx ∈ blk.vtx) : tx ∈ occurring events := by
  obtain hgenesis | hdelivered := harrived
  · rw [(minedGenesis_spec hgenesis).1] at htx
    exact Or.inl (List.mem_singleton.mp htx)
  · exact Or.inr ⟨blk, hdelivered, htx⟩

/-- The transactions of a chain of blocks that arrived have the same id only if they are the same. -/
theorem getTxID_injective_of_arrived {params : ChainParams} {events blocks : List CBlock} {view : CCoinsView}
    (hcollision : Set.InjOn sha256d (serializeTransaction '' occurring events))
    (hreplay : replay 0 .empty blocks = .ok view) (hknown : ∀ blk ∈ blocks, Arrived params events blk) :
    ∀ a ∈ blocks.flatMap CBlock.vtx, ∀ b ∈ blocks.flatMap CBlock.vtx, getTxID a = getTxID b → a = b := by
  have hoccurring : ∀ tx ∈ blocks.flatMap CBlock.vtx, tx ∈ occurring events := by
    intro tx htx
    obtain ⟨blk, hblk, htx⟩ := List.mem_flatMap.mp htx
    exact (hknown blk hblk).occurring htx
  intro a ha b hb hid
  have hsame := hcollision ⟨a, hoccurring a ha, rfl⟩ ⟨b, hoccurring b hb, rfl⟩ hid
  exact serializeTransaction_injective (replay_wellFormed hreplay a ha).decodable
    (replay_wellFormed hreplay b hb).decodable hsame

variable [Memory]

/-- No two transactions of the active chain have the same id, and what follows from it. -/
def UniqueTxIds (bc : CBlockchain) : Prop := ∃ blocks, bc.readChain = some blocks ∧ UniqueIds blocks

theorem Active.uniqueTxIds_iff {params : ChainParams} {bc : CBlockchain} {blocks : List CBlock}
    (hactive : Active params bc blocks) : UniqueTxIds bc ↔ UniqueIds blocks := by
  constructor
  · rintro ⟨blocks', hread, hunique⟩
    rw [hactive.readChain, Option.some.injEq] at hread
    rwa [hread]
  · exact fun hunique => ⟨blocks, hactive.readChain, hunique⟩

/-- A block that is connected brings a coinbase with a new id. -/
def JoinsNewCoinbase (params : ChainParams) (bc : CBlockchain) (blk : CBlock) : Prop :=
  ∀ base, Joins params bc blk base → NewCoinbase blk base

/-- Every block of the active chain is the genesis block or was delivered. -/
def Occurs (params : ChainParams) (events : List CBlock) (bc : CBlockchain) : Prop :=
  ∃ blocks, Active params bc blocks ∧ ∀ blk ∈ blocks, Arrived params events blk

theorem Occurs.deliver {params : ChainParams} {events : List CBlock} {bc bc' : CBlockchain} {blk : CBlock}
    (hoccurs : Occurs params events bc) (hblk : blk ∈ events) (hdeliver : CBlockchain.deliver params bc blk = some bc') :
    Occurs params events bc' := by
  obtain ⟨blocks, hactive, hknown⟩ := hoccurs
  rcases hactive.deliver_joins hdeliver with htouched | ⟨base, hjoins⟩
  · exact ⟨blocks, hactive.touched htouched, hknown⟩
  · obtain ⟨hinitial, -, hactive'⟩ := hactive.joined hjoins hdeliver
    refine ⟨base ++ [blk], hactive', ?_⟩
    intro old hold
    rcases List.mem_append.mp hold with hold | hold
    · exact hknown old (hinitial.subset hold)
    · cases List.mem_singleton.mp hold
      exact Or.inr hblk

/-- A delivery keeps the ids apart exactly when the block it connects, if any, has a
    new coinbase: other transactions need unspent inputs and cannot come twice. -/
theorem Occurs.uniqueTxIds_deliver_iff {params : ChainParams} {events : List CBlock} {bc bc' : CBlockchain}
    {blk : CBlock} (hcollision : Set.InjOn sha256d (serializeTransaction '' occurring events))
    (hoccurs : Occurs params events bc) (hunique : UniqueTxIds bc) (hblk : blk ∈ events)
    (hdeliver : CBlockchain.deliver params bc blk = some bc') :
    UniqueTxIds bc' ↔ JoinsNewCoinbase params bc blk := by
  obtain ⟨blocks, hactive, hknown⟩ := hoccurs
  rw [hactive.uniqueTxIds_iff] at hunique
  have hjoined : ∀ {base}, Joins params bc blk base → (UniqueTxIds bc' ↔ NewCoinbase blk base) := by
    intro base hjoins
    obtain ⟨hinitial, -, hactive'⟩ := hactive.joined hjoins hdeliver
    obtain ⟨view, hbase, -⟩ := replay_append_eq_ok hactive'.replayed
    rw [hactive'.uniqueTxIds_iff]
    apply (hunique.of_prefix hinitial hbase).snoc_iff hactive'.replayed
    apply getTxID_injective_of_arrived hcollision hactive'.replayed
    intro old hold
    rcases List.mem_append.mp hold with hold | hold
    · exact hknown old (hinitial.subset hold)
    · cases List.mem_singleton.mp hold
      exact Or.inr hblk
  constructor
  · exact fun hunique' base hjoins => (hjoined hjoins).mp hunique'
  · intro hnew
    rcases hactive.deliver_joins hdeliver with htouched | ⟨base, hjoins⟩
    · exact (hactive.touched htouched).uniqueTxIds_iff.mpr hunique
    · exact (hjoined hjoins).mpr (hnew base hjoins)

/-- Transaction ids are unique along the active chain in every state of a run exactly
    when every block that the run connects has a coinbase whose id is new to the
    branch it joins. -/
theorem run_uniqueTxIds_iff {params : ChainParams} {start final : CBlockchain} {events : List CBlock}
    (hcollision : Set.InjOn sha256d (serializeTransaction '' occurring events))
    (hfresh : CBlockchain.fresh params = some start)
    (hrun : transition.run (CBlockchain.deliver params) start events = some final) :
    (∀ bc, transition.Visits (CBlockchain.deliver params) start events bc → UniqueTxIds bc) ↔
      ∀ bc blk, transition.Takes (CBlockchain.deliver params) start events bc blk → JoinsNewCoinbase params bc blk := by
  obtain ⟨g, view, fees, hmined, hcheck, -, hactive⟩ := fresh_active hfresh
  have hvtx := (minedGenesis_spec hmined).1
  apply transition.visits_iff_takes (I := Occurs params events) _ _ _ _ hrun
  · exact fun bc blk bc' hblk hoccurs _ hdeliver => hoccurs.deliver hblk hdeliver
  · exact fun bc blk bc' hblk hoccurs hunique hdeliver =>
      hoccurs.uniqueTxIds_deliver_iff hcollision hunique hblk hdeliver
  · refine ⟨[g], hactive, ?_⟩
    intro blk hblk
    cases List.mem_singleton.mp hblk
    exact Or.inl hmined
  · rw [hactive.uniqueTxIds_iff, uniqueIds_iff hactive.replayed, nodup_history_iff]
    simp [hvtx]

end Ids

section

attribute [local instance] toolCrypto zeroMemory

theorem genesisTx_id_ne : getTxID genesisTx ≠ getTxID (regtestCoinbase 1) := by
  rw [← tableCrypto_eq digests_right]
  decide +kernel

/-- The two coinbases of the sample blocks have different ids. -/
theorem collisionFree_first {txs : Set CTransaction} (htxs : ∀ tx ∈ txs, tx = genesisTx ∨ tx = regtestCoinbase 1) :
    Set.InjOn sha256d (serializeTransaction '' txs) := by
  rintro _ ⟨a, ha, rfl⟩ _ ⟨b, hb, rfl⟩ hsame
  rcases htxs a ha with rfl | rfl <;> rcases htxs b hb with rfl | rfl
  · rfl
  · exact absurd hsame genesisTx_id_ne
  · exact absurd hsame.symm genesisTx_id_ne
  · rfl

theorem occurring_first {events : List CBlock} (hevents : ∀ blk ∈ events, blk.vtx = [regtestCoinbase 1]) :
    ∀ tx ∈ occurring events, tx = genesisTx ∨ tx = regtestCoinbase 1 := by
  rintro tx (rfl | ⟨blk, hblk, htx⟩)
  · exact Or.inl rfl
  · rw [hevents blk hblk] at htx
    exact Or.inr (List.mem_singleton.mp htx)

theorem run_uniqueTxIds_first : ∃ start final, CBlockchain.fresh regtestParams = some start ∧
    transition.run (CBlockchain.deliver regtestParams) start [firstBlock] = some final ∧
    ∀ bc, transition.Visits (CBlockchain.deliver regtestParams) start [firstBlock] bc → UniqueTxIds bc := by
  obtain ⟨start, final, hfresh, hrun⟩ := regtestAfter_extended
  refine ⟨start, final, hfresh, hrun, (run_uniqueTxIds_iff ?_ hfresh hrun).mpr ?_⟩
  · apply collisionFree_first (occurring_first ?_)
    rw [List.forall_mem_singleton]
    rfl
  · rintro bc blk (⟨rfl, rfl⟩ | ⟨next, -, htakes⟩) base hjoins coinbase txs hvtx
    · obtain ⟨g, view, fees, hmined, -, -, hactive⟩ := fresh_active hfresh
      obtain ⟨next, hnext, -⟩ := transition.run_cons_eq_some hrun
      obtain ⟨hinitial, -, -⟩ := hactive.joined hjoins hnext
      cases hvtx
      rintro hseen
      obtain ⟨tx, htx, hid⟩ := List.mem_map.mp hseen
      obtain ⟨blk, hblk, htx⟩ := List.mem_flatMap.mp htx
      cases List.mem_singleton.mp (hinitial.subset hblk)
      rw [(minedGenesis_spec hmined).1] at htx
      cases List.mem_singleton.mp htx
      exact genesisTx_id_ne hid
    · cases htakes

/-- A block that repeats the coinbase of genesis is connected; no two different
    transactions are involved, so there is no collision. -/
theorem uniqueTxIds_fails_after_echo : Set.InjOn sha256d (serializeTransaction '' occurring [echoBlock]) ∧
    ∃ bc, regtestAfter [echoBlock] = some bc ∧ ¬ UniqueTxIds bc := by
  have hevaluated : (regtestAfter [echoBlock]).map (fun bc => bc.readChain.map fun blocks =>
      decide ((blocks.flatMap CBlock.vtx).map getTxID).Nodup) = some (some false) := by
    rw [← tableCrypto_eq digests_right]
    decide +kernel
  obtain ⟨bc, hbc, hchain⟩ := Option.map_eq_some_iff.mp hevaluated
  obtain ⟨blocks, hread, hrepeated⟩ := Option.map_eq_some_iff.mp hchain
  have hoccurring : ∀ tx ∈ occurring [echoBlock], tx = genesisTx := by
    rintro tx (rfl | ⟨blk, hblk, htx⟩)
    · rfl
    · cases List.mem_singleton.mp hblk
      exact List.mem_singleton.mp htx
  refine ⟨?_, bc, hbc, ?_⟩
  · rintro _ ⟨a, ha, rfl⟩ _ ⟨b, hb, rfl⟩ -
    rw [hoccurring a ha, hoccurring b hb]
  · rintro ⟨blocks', hread', hunique⟩
    rw [hread, Option.some.injEq] at hread'
    subst hread'
    exact absurd hunique.ids (of_decide_eq_false hrepeated)

end

end cdx
