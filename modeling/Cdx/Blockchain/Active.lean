import Cdx.Blockchain.Delivery
import Cdx.Consensus.Accepted
import Cdx.Lib.Transition

namespace cdx

/-- The work of a list of blocks, summed as the index sums it. -/
def chainWorkOf (blocks : List CBlock) : UInt256 :=
  blocks.foldl (fun work blk => work + getBlockWork blk.header.bits) 0

theorem chainWorkOf_snoc (blocks : List CBlock) (blk : CBlock) :
    chainWorkOf (blocks ++ [blk]) = chainWorkOf blocks + getBlockWork blk.header.bits := by
  simp [chainWorkOf]

theorem chainWorkOf_singleton (blk : CBlock) : chainWorkOf [blk] = getBlockWork blk.header.bits := by
  simp [chainWorkOf, UInt256.zero_add]

variable [Crypto]

/-- `CheckBlock` folded over a list of blocks, the first one at height `h`. -/
def replay (h : Nat) (view : CCoinsView) : List CBlock → Except Reject CCoinsView
  | [] => .ok view
  | blk :: rest => do
    let (view, _) ← checkBlock blk h view
    replay (h + 1) view rest

theorem replay_append (h : Nat) (view : CCoinsView) (xs ys : List CBlock) :
    replay h view (xs ++ ys) = replay h view xs >>= fun mid => replay (h + xs.length) mid ys := by
  induction xs generalizing h view with
  | nil => rfl
  | cons blk rest ih =>
    cases hcheck : checkBlock blk h view with
    | error reject => simp [replay, hcheck, bind, Except.bind]
    | ok result =>
      simp only [List.cons_append, replay, hcheck, bind_ok, List.length_cons]
      rw [ih, show h + (rest.length + 1) = h + 1 + rest.length by omega]

theorem replay_append_eq_ok {h : Nat} {view view' : CCoinsView} {xs ys : List CBlock}
    (hreplay : replay h view (xs ++ ys) = .ok view') :
    ∃ mid, replay h view xs = .ok mid ∧ replay (h + xs.length) mid ys = .ok view' := by
  rw [replay_append] at hreplay
  exact bind_eq_ok_iff.mp hreplay

theorem replay_singleton_eq_ok_iff {h : Nat} {view view' : CCoinsView} {blk : CBlock} :
    replay h view [blk] = .ok view' ↔ ∃ fees, checkBlock blk h view = .ok (view', fees) := by
  constructor
  · intro hreplay
    obtain ⟨⟨mid, fees⟩, hcheck, hrest⟩ := bind_eq_ok_iff.mp hreplay
    cases hrest
    exact ⟨fees, hcheck⟩
  · rintro ⟨fees, hcheck⟩
    rw [replay, hcheck]
    rfl

/-- Each block of the list passes the header check against the one before it. -/
def Linked (params : ChainParams) (blocks : List CBlock) : Prop :=
  ∀ i prev blk, blocks[i]? = some prev → blocks[i + 1]? = some blk →
    checkBlockHeader blk.header (some prev.header) params = .ok ()

theorem Linked.take {params : ChainParams} {blocks : List CBlock} (hlinked : Linked params blocks) (n : Nat) :
    Linked params (blocks.take n) := by
  intro i prev blk hprev hblk
  have hi := (List.getElem?_eq_some_iff.mp hblk).1
  rw [List.length_take] at hi
  rw [List.getElem?_take_of_lt (by omega)] at hprev hblk
  exact hlinked i prev blk hprev hblk

theorem Linked.snoc {params : ChainParams} {blocks : List CBlock} (hlinked : Linked params blocks) {blk : CBlock}
    (hblk : ∀ last, blocks.getLast? = some last → checkBlockHeader blk.header (some last.header) params = .ok ()) :
    Linked params (blocks ++ [blk]) := by
  intro i prev next hprev hnext
  have hi := (List.getElem?_eq_some_iff.mp hnext).1
  rw [List.length_append, List.length_singleton] at hi
  rw [List.getElem?_append_left (by omega)] at hprev
  by_cases hlast : i + 1 < blocks.length
  · rw [List.getElem?_append_left hlast] at hnext
    exact hlinked i prev next hprev hnext
  · obtain rfl : i = blocks.length - 1 := by omega
    rw [show blocks.length - 1 + 1 = blocks.length by omega, List.getElem?_concat_length] at hnext
    cases hnext
    apply hblk
    rw [List.getLast?_eq_getElem?, hprev]

/-- Headers that are checked one against the next have increasing timestamps. -/
theorem Linked.timestamp_lt {params : ChainParams} {blocks : List CBlock} (hlinked : Linked params blocks) {i j : Nat}
    (hij : i < j) {a b : CBlock} (ha : blocks[i]? = some a) (hb : blocks[j]? = some b) :
    a.header.timestamp < b.header.timestamp := by
  induction j generalizing b with
  | zero => omega
  | succ j ih =>
    have hj := (List.getElem?_eq_some_iff.mp hb).1
    obtain ⟨mid, hmid⟩ : ∃ mid, blocks[j]? = some mid := ⟨_, List.getElem?_eq_getElem (by omega)⟩
    have hlast := (checkBlockHeader_some_eq_ok_iff.mp (hlinked j mid b hmid hb)).2.2
    by_cases hsame : i = j
    · subst hsame
      rw [ha] at hmid
      cases hmid
      exact hlast
    · exact UInt32.lt_trans (ih (by omega) hmid) hlast

/-- What the fork validation loop establishes. -/
theorem validateFork_eq_ok {params : ChainParams} {blocks : List CBlock} {prev : Option CBlockHeader} {h : Nat}
    {view freshView : CCoinsView} {hashes newByHeight : List UInt256}
    (hvalidate : CBlockchain.validateFork params blocks prev h view hashes = .ok (freshView, newByHeight)) :
    replay h view blocks = .ok freshView ∧ newByHeight = hashes ++ blocks.map CBlock.getHash ∧
      (∀ blk, blocks[0]? = some blk → checkBlockHeader blk.header prev params = .ok ()) ∧ Linked params blocks := by
  induction blocks generalizing prev h view hashes with
  | nil =>
    cases hvalidate
    exact ⟨rfl, by simp, by simp, fun i prev blk hprev => by simp at hprev⟩
  | cons first rest ih =>
    unfold CBlockchain.validateFork at hvalidate
    split at hvalidate
    · cases hvalidate
    next hheader =>
    split at hvalidate
    · cases hvalidate
    · cases hvalidate
    next outView fees hcheck =>
      obtain ⟨hreplay, hhashes, hfirst, hlinked⟩ := ih hvalidate
      refine ⟨?_, ?_, ?_, ?_⟩
      · rw [replay, hcheck, bind_ok]
        exact hreplay
      · rw [hhashes, List.append_assoc]
        rfl
      · intro blk hblk
        cases hblk
        exact hheader
      · intro i prev' blk hprev hblk
        cases i with
        | zero =>
          cases hprev
          exact hfirst blk hblk
        | succ i => exact hlinked i prev' blk hprev hblk

/-- The fork validation loop accepts blocks that pass both checks. -/
theorem validateFork_of_replay {params : ChainParams} {blocks : List CBlock} {prev : Option CBlockHeader} {h : Nat}
    {view freshView : CCoinsView} (hashes : List UInt256) (hreplay : replay h view blocks = .ok freshView)
    (hfirst : ∀ blk, blocks[0]? = some blk → checkBlockHeader blk.header prev params = .ok ())
    (hlinked : Linked params blocks) :
    CBlockchain.validateFork params blocks prev h view hashes =
      .ok (freshView, hashes ++ blocks.map CBlock.getHash) := by
  induction blocks generalizing prev h view hashes with
  | nil =>
    cases hreplay
    simp [CBlockchain.validateFork]
  | cons first rest ih =>
    obtain ⟨⟨outView, fees⟩, hcheck, hrest⟩ := bind_eq_ok_iff.mp hreplay
    have hsecond : ∀ blk, rest[0]? = some blk → checkBlockHeader blk.header (some first.header) params = .ok () :=
      fun blk hblk => hlinked 0 first blk rfl hblk
    have hrestLinked : Linked params rest := fun i prev' blk hprev hblk => hlinked (i + 1) prev' blk hprev hblk
    have htail := ih (hashes ++ [first.getHash]) hrest hsecond hrestLinked
    unfold CBlockchain.validateFork
    rw [hfirst first rfl]
    simp only [hcheck]
    rw [htail, List.append_assoc]
    rfl

variable [Memory]

/-- The start time of the difficulty interval of the block after a list of blocks. -/
def startTime (params : ChainParams) (blocks : List CBlock) (prev : CBlockHeader) : Int :=
  let start := ((blocks.length - 1 : Int) + 1).tdiv params.difficultyInterval * params.difficultyInterval
  if start > 0 then
    match blocks[start.toNat]? with
    | some firstBlk => firstBlk.header.timestamp.toNat
    | none =>
      match Memory.readPastEnd (blocks.map CBlock.getHash) start.toNat with
      | some firstBlk => firstBlk.header.timestamp.toNat
      | none => prev.timestamp.toNat
  else prev.timestamp.toNat

/-- The bits that `GetNextWorkRequired` demands of the block after a list of
    blocks that ends in `prev`. -/
def requiredBits (params : ChainParams) (blocks : List CBlock) (prev : CBlockHeader) : UInt32 :=
  getNextWorkRequired prev.timestamp.toNat (blocks.length - 1) prev.bits (startTime params blocks prev) params

/-- The state of the node holds exactly the chain of these blocks. -/
structure Active (params : ChainParams) (bc : CBlockchain) (blocks : List CBlock) : Prop where
  ne_nil : blocks ≠ []
  byHeight : bc.chain.byHeight = blocks.map CBlock.getHash
  height : bc.chain.height = blocks.length - 1
  tip : ∃ last, blocks.getLast? = some last ∧ bc.chain.tipHash = last.getHash
  stored : ∀ blk ∈ blocks, bc.storage.stored blk.getHash = some blk
  replayed : replay 0 .empty blocks = .ok bc.chain.view
  linked : Linked params blocks
  genesis : ∀ g : CBlock, blocks[0]? = some g → checkProofOfWork g.getHash g.header.bits = true
  indexed : ∀ (i : Nat) (blk : CBlock), blocks[i]? = some blk →
    bc.getIndex blk.getHash = some (blk.indexEntry i (chainWorkOf (blocks.take (i + 1))) (decide (i = 0)))
  heights : ∀ hash entry, bc.getIndex hash = some entry → 0 ≤ entry.height

/-- Reads leave the chain of the node as it is. -/
theorem Active.touched {params : ChainParams} {bc bc' : CBlockchain} {blocks : List CBlock}
    (hactive : Active params bc blocks) (htouched : CBlockchain.Touched bc bc') : Active params bc' blocks := by
  have hchain := htouched.chain_eq
  refine ⟨hactive.ne_nil, ?_, ?_, ?_, ?_, ?_, hactive.linked, hactive.genesis, ?_, ?_⟩
  · rw [hchain]
    exact hactive.byHeight
  · rw [hchain]
    exact hactive.height
  · rw [hchain]
    exact hactive.tip
  · intro blk hblk
    rw [htouched.stored_eq]
    exact hactive.stored blk hblk
  · rw [hchain]
    exact hactive.replayed
  · intro i blk hblk
    rw [CBlockchain.getIndex, hchain]
    exact hactive.indexed i blk hblk
  · intro hash entry hentry
    rw [CBlockchain.getIndex, hchain] at hentry
    exact hactive.heights hash entry hentry

/-- The hash at a height of the active chain leads back to its block. -/
theorem Active.blockAt {params : ChainParams} {bc : CBlockchain} {blocks : List CBlock}
    (hactive : Active params bc blocks) (i : Nat) :
    bc.blockAt i =
      match blocks[i]? with
      | some blk => some blk
      | none => Memory.readPastEnd (blocks.map CBlock.getHash) i := by
  unfold CBlockchain.blockAt
  rw [hactive.byHeight, List.getElem?_map]
  cases hblk : blocks[i]? with
  | none => rfl
  | some blk => exact hactive.stored blk (List.mem_of_getElem? hblk)

theorem Active.firstTime {params : ChainParams} {bc : CBlockchain} {blocks : List CBlock}
    (hactive : Active params bc blocks) (prev : CBlockHeader) :
    bc.firstTime params prev (blocks.length - 1) = startTime params blocks prev := by
  unfold CBlockchain.firstTime startTime
  simp only [hactive.blockAt]
  split
  · cases hblk : blocks[(((blocks.length - 1 : Int) + 1).tdiv params.difficultyInterval *
        params.difficultyInterval).toNat]? with
    | none => rfl
    | some blk => rfl
  · rfl

theorem Active.getBlockByHeight {params : ChainParams} {bc : CBlockchain} {blocks : List CBlock}
    (hactive : Active params bc blocks) (i : Nat) : (bc.getBlockByHeight i).1 = blocks[i]? := by
  rw [CBlockchain.getBlockByHeight_fst, hactive.height]
  by_cases hi : i < blocks.length
  · rw [if_pos (by omega), hactive.blockAt, List.getElem?_eq_getElem hi]
  · rw [if_neg (by omega), List.getElem?_eq_none (by omega)]

/-- The index entry of the parent of a block that extends the tip. -/
theorem Active.last_indexed {params : ChainParams} {bc : CBlockchain} {blocks : List CBlock}
    (hactive : Active params bc blocks) {last : CBlock} (hlast : blocks.getLast? = some last) :
    bc.getIndex last.getHash =
      some (last.indexEntry (blocks.length - 1 : Nat) (chainWorkOf blocks) (decide (blocks.length - 1 = 0))) := by
  have hget : blocks[blocks.length - 1]? = some last := by rw [← List.getLast?_eq_getElem?, hlast]
  have hpos := List.length_pos_of_ne_nil hactive.ne_nil
  rw [hactive.indexed _ _ hget, Nat.sub_add_cancel hpos, List.take_length]

/-- Distinct heights of the active chain have distinct hashes. -/
theorem Active.index_unique {params : ChainParams} {bc : CBlockchain} {blocks : List CBlock}
    (hactive : Active params bc blocks) {i j : Nat} {a b : CBlock} (hi : blocks[i]? = some a)
    (hj : blocks[j]? = some b) (hhash : a.getHash = b.getHash) : i = j := by
  have ha := hactive.indexed i a hi
  have hb := hactive.indexed j b hj
  rw [hhash, hb] at ha
  have hheight := congrArg CBlockIndex.height (Option.some.inj ha)
  simp only [CBlock.indexEntry] at hheight
  omega

end cdx
