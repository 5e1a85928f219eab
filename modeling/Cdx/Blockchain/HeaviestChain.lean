import Cdx.Blockchain.DifficultyRule

namespace cdx

theorem eq_or_contains_of_insert {index : Std.ExtTreeMap UInt256 CBlockIndex} {hash new : UInt256} {entry : CBlockIndex}
    (hcontains : (index.insert new entry).contains hash = true) : hash = new ∨ index.contains hash = true := by
  rw [Std.ExtTreeMap.contains_insert, Bool.or_eq_true, beq_iff_eq, compare_eq_iff_eq] at hcontains
  obtain hsame | hold := hcontains
  · exact Or.inl hsame.symm
  · exact Or.inr hold

section Tree

variable [Crypto] [Memory]

/-- A branch of valid blocks from genesis on: each passes the header check against
    its parent, has the bits demanded after it, and passes `CheckBlock` over the
    replay of what is below it. -/
structure ValidBranch (params : ChainParams) (path : List CBlock) : Prop where
  root : ∃ g, CBlockchain.minedGenesis params = some g ∧ path[0]? = some g ∧
    checkBlockHeader g.header none params = .ok ()
  linked : Linked params path
  bits : RightBits params path
  replayed : ∃ view, replay 0 .empty path = .ok view
  short : (path.length : Int) ≤ params.difficultyInterval

/-- A block of a tree rooted at genesis, with the branch of its parent. -/
structure TreeNode (params : ChainParams) where
  base : List CBlock
  block : CBlock
  base_ne_nil : base ≠ []
  valid : ValidBranch params (base ++ [block])

variable {params : ChainParams}

/-- The branch of a block, itself included. -/
def TreeNode.path (node : TreeNode params) : List CBlock := node.base ++ [node.block]

/-- The cumulative chain work of a block. -/
def TreeNode.work (node : TreeNode params) : UInt256 := chainWorkOf node.path

/-- The blocks of a tree in an order in which parents precede their children. Blocks
    of the tree, genesis included, have different hashes. -/
structure DeliveryOrder (nodes : List (TreeNode params)) : Prop where
  parents : ∀ before node after, nodes = before ++ node :: after →
    node.base.length = 1 ∨ ∃ parent ∈ before, parent.path = node.base
  distinct : ∀ a ∈ nodes, ∀ b ∈ nodes, a.block.getHash = b.block.getHash → a.path = b.path
  genesis : ∀ node ∈ nodes, ∀ g, node.base[0]? = some g → node.block.getHash ≠ g.getHash

/-- The list is the branch of genesis or of a block of the tree. -/
def InTree (g : CBlock) (nodes : List (TreeNode params)) (path : List CBlock) : Prop :=
  path = [g] ∨ ∃ node ∈ nodes, node.path = path

theorem InTree.mono {g : CBlock} {nodes more : List (TreeNode params)} {path : List CBlock}
    (hpath : InTree g nodes path) (hsub : ∀ node ∈ nodes, node ∈ more) : InTree g more path := by
  obtain hroot | ⟨node, hnode, hnodePath⟩ := hpath
  · exact Or.inl hroot
  · exact Or.inr ⟨node, hsub node hnode, hnodePath⟩

theorem TreeNode.base_root (node : TreeNode params) {g : CBlock} (hmined : CBlockchain.minedGenesis params = some g) :
    node.base[0]? = some g ∧ checkBlockHeader g.header none params = .ok () := by
  obtain ⟨g', hmined', hfirst, hheader⟩ := node.valid.root
  obtain rfl : g = g' := Option.some.inj (hmined.symm.trans hmined')
  rw [List.getElem?_append_left (List.length_pos_of_ne_nil node.base_ne_nil)] at hfirst
  exact ⟨hfirst, hheader⟩

/-- The parent of a block of the tree is in the tree. -/
theorem DeliveryOrder.base_inTree {nodes : List (TreeNode params)} (horder : DeliveryOrder nodes) {g : CBlock}
    (hmined : CBlockchain.minedGenesis params = some g) {node : TreeNode params} (hnode : node ∈ nodes) :
    InTree g nodes node.base := by
  obtain ⟨before, after, hsplit⟩ := List.append_of_mem hnode
  obtain hone | ⟨parent, hparent, hpath⟩ := horder.parents before node after hsplit
  · left
    obtain ⟨first, hfirst⟩ := List.length_eq_one_iff.mp hone
    have hroot := (node.base_root hmined).1
    rw [hfirst] at hroot ⊢
    cases hroot
    rfl
  · right
    refine ⟨parent, ?_, hpath⟩
    rw [hsplit]
    exact List.mem_append_left _ hparent

/-- Two branches of the tree whose last blocks have the same hash are the same. -/
theorem DeliveryOrder.inTree_unique {nodes : List (TreeNode params)} (horder : DeliveryOrder nodes) {g : CBlock}
    (hmined : CBlockchain.minedGenesis params = some g) {a b : List CBlock} (ha : InTree g nodes a)
    (hb : InTree g nodes b) {x y : CBlock} (hx : a.getLast? = some x) (hy : b.getLast? = some y)
    (hhash : x.getHash = y.getHash) : a = b := by
  have hlast : ∀ {node : TreeNode params} {z : CBlock}, node.path.getLast? = some z → node.block = z := by
    intro node z hz
    rw [TreeNode.path, List.getLast?_concat, Option.some.injEq] at hz
    exact hz
  have hroot : ∀ {node : TreeNode params}, node ∈ nodes → node.block.getHash ≠ g.getHash := by
    intro node hnode
    exact horder.genesis node hnode g (node.base_root hmined).1
  obtain rfl | ⟨m, hm, rfl⟩ := ha <;> obtain rfl | ⟨n, hn, rfl⟩ := hb
  · rfl
  · cases hlast hy
    cases hx
    exact absurd hhash.symm (hroot hn)
  · cases hlast hx
    cases hy
    exact absurd hhash (hroot hm)
  · cases hlast hx
    cases hlast hy
    exact horder.distinct m hm n hn hhash

/-- One delivery, with the blocks delivered so far. -/
def deliverNode (params : ChainParams) (s : CBlockchain × List (TreeNode params)) (node : TreeNode params) :
    Option (CBlockchain × List (TreeNode params)) :=
  (CBlockchain.deliver params s.1 node.block).map fun bc => (bc, node :: s.2)

/-- The active tip has the most cumulative chain work of genesis and all delivered blocks. -/
def Heaviest (s : CBlockchain × List (TreeNode params)) : Prop :=
  ∃ tip, s.1.getIndex s.1.chain.tipHash = some tip ∧
    (∀ g, CBlockchain.minedGenesis params = some g → chainWorkOf [g] ≤ tip.chainWork) ∧
      ∀ node ∈ s.2, node.work ≤ tip.chainWork

/-- A delivery that is not yet indexed comes in time: on the tip it does not make the
    sum wrap, below the tip it does not beat the recorded work alone, and off the
    active chain it has no more work than the tip. -/
def InTime (bc : CBlockchain) (node : TreeNode params) : Prop :=
  bc.haveBlock node.block.getHash = false → ∀ tip, bc.getIndex bc.chain.tipHash = some tip →
    (node.block.header.prevBlockHash = bc.chain.tipHash → tip.chainWork ≤ node.work) ∧
    (node.block.header.prevBlockHash ∈ bc.chain.byHeight → node.block.header.prevBlockHash ≠ bc.chain.tipHash →
      node.work ≤ bc.chain.chainWork ∨ tip.chainWork ≤ node.work) ∧
    (node.block.header.prevBlockHash ∉ bc.chain.byHeight → node.work ≤ tip.chainWork)

/-- The node holds a branch of the tree made of delivered blocks, and has indexed
    delivered blocks only. -/
structure Follows (nodes : List (TreeNode params)) (g : CBlock) (s : CBlockchain × List (TreeNode params))
    (blocks : List CBlock) : Prop where
  active : Active params s.1 blocks
  seen : ∀ node ∈ s.2, node ∈ nodes
  inTree : ∀ k < blocks.length, InTree g s.2 (blocks.take (k + 1))
  indexed : ∀ hash, s.1.haveBlock hash = true → hash = g.getHash ∨ ∃ node ∈ s.2, node.block.getHash = hash
  work : s.1.chain.chainWork ≤ chainWorkOf blocks

theorem Active.tip_indexed {bc : CBlockchain} {blocks : List CBlock} (hactive : Active params bc blocks) :
    ∃ tip, bc.getIndex bc.chain.tipHash = some tip ∧ tip.chainWork = chainWorkOf blocks := by
  obtain ⟨last, hlast, htip⟩ := hactive.tip
  rw [htip, hactive.last_indexed hlast]
  exact ⟨_, rfl, rfl⟩

theorem Active.heaviest_iff {s : CBlockchain × List (TreeNode params)} {blocks : List CBlock} {g : CBlock}
    (hactive : Active params s.1 blocks) (hmined : CBlockchain.minedGenesis params = some g) :
    Heaviest s ↔ chainWorkOf [g] ≤ chainWorkOf blocks ∧ ∀ node ∈ s.2, node.work ≤ chainWorkOf blocks := by
  obtain ⟨tip, htip, hwork⟩ := hactive.tip_indexed
  rw [← hwork]
  constructor
  · intro ⟨tip', htip', hgenesis, hall⟩
    obtain rfl : tip = tip' := Option.some.inj (htip.symm.trans htip')
    exact ⟨hgenesis g hmined, hall⟩
  · intro ⟨hgenesis, hall⟩
    refine ⟨tip, htip, ?_, hall⟩
    intro g' hmined'
    obtain rfl : g = g' := Option.some.inj (hmined.symm.trans hmined')
    exact hgenesis

/-- A delivery indexes no block but its own. -/
theorem Active.haveBlock_deliver {bc bc' : CBlockchain} {blocks : List CBlock} {blk : CBlock}
    (hactive : Active params bc blocks) (hdeliver : CBlockchain.deliver params bc blk = some bc') {hash : UInt256}
    (hhave : bc'.haveBlock hash = true) : hash = blk.getHash ∨ bc.haveBlock hash = true := by
  obtain ⟨blocks', hstep, -⟩ := hactive.deliver hdeliver
  cases hstep with
  | kept htouched =>
    rw [CBlockchain.haveBlock, htouched.chain_eq] at hhave
    exact Or.inr hhave
  | extended hunknown hlast hheader hbits hcheck hresult =>
    rw [CBlockchain.haveBlock, hresult, CBlockchain.applyBlock_chain] at hhave
    exact eq_or_contains_of_insert hhave
  | reorganised hunknown hparent hbelow hgenesis hheader hreplay hwork hresult =>
    rw [CBlockchain.haveBlock, hresult,
      hactive.replaceChain_chain hparent (checkBlockHeader_some_eq_ok_iff.mp hheader).2.1] at hhave
    exact eq_or_contains_of_insert hhave

/-- The node never records more work than its chain has. -/
theorem Active.chainWork_joined {bc bc' : CBlockchain} {blocks base : List CBlock} {blk : CBlock}
    (hactive : Active params bc blocks) (hjoins : Joins params bc blk base)
    (hdeliver : CBlockchain.deliver params bc blk = some bc') : bc'.chain.chainWork ≤ chainWorkOf (base ++ [blk]) := by
  obtain hextends | ⟨blocks', forkHeight, hfork, rfl⟩ := hjoins
  · obtain rfl : blocks = base := Option.some.inj (hactive.readChain.symm.trans hextends.active)
    obtain ⟨last, hlast, -⟩ := hactive.tip
    obtain ⟨view, fees, -, hresult⟩ := hactive.deliver_extension hextends hlast
    rw [hdeliver, Option.some.injEq] at hresult
    rw [hresult, CBlockchain.applyBlock_chain, chainWorkOf_snoc]
    exact le_refl _
  · obtain rfl : blocks = blocks' := Option.some.inj (hactive.readChain.symm.trans hfork.active)
    rw [(hactive.forked hfork hdeliver).2]
    exact le_of_lt hfork.work

/-- A block that extends the active chain is accepted. -/
theorem Active.tryAcceptBlock_extends {bc : CBlockchain} {blocks : List CBlock} {blk : CBlock}
    (hactive : Active params bc blocks) (hextends : ExtendsAt params bc blk blocks) :
    ∃ r bc', CBlockchain.tryAcceptBlock params blk bc = .ok (r, bc') ∧ r.ok = true ∧
      Active params bc' (blocks ++ [blk]) := by
  obtain ⟨last, hlast, -⟩ := hactive.tip
  obtain ⟨view, fees, -, hdeliver⟩ := hactive.deliver_extension hextends hlast
  obtain ⟨-, -, hactive'⟩ := hactive.joined (Or.inl hextends) hdeliver
  generalize bc.touch.applyBlock blk _ _ view = bc' at hdeliver hactive'
  rw [CBlockchain.deliver] at hdeliver
  split at hdeliver
  next r bc'' haccept =>
    cases hdeliver
    refine ⟨r, bc', haccept, ?_, hactive'⟩
    cases CBlockchain.delivered_of_tryAcceptBlock haccept with
    | rejected message _ htouched =>
      have hsame := (hactive.touched htouched).readChain.symm.trans hactive'.readChain
      simp at hsame
    | known | extended | reorganised => rfl
  · cases hdeliver

/-- A block is connected on top of the block it names as its parent. -/
theorem Active.joins_parent {bc : CBlockchain} {blocks base : List CBlock} {blk : CBlock}
    (hactive : Active params bc blocks) (hjoins : Joins params bc blk base) :
    ∃ k parent, k < blocks.length ∧ base = blocks.take (k + 1) ∧ blocks[k]? = some parent ∧
      blk.header.prevBlockHash = parent.getHash := by
  have hpos := List.length_pos_of_ne_nil hactive.ne_nil
  obtain hextends | ⟨blocks', forkHeight, hfork, rfl⟩ := hjoins
  · obtain rfl : blocks = base := Option.some.inj (hactive.readChain.symm.trans hextends.active)
    obtain ⟨last, hlast, -⟩ := hactive.tip
    refine ⟨blocks.length - 1, last, by omega, ?_, ?_, ?_⟩
    · rw [Nat.sub_add_cancel hpos, List.take_length]
    · rw [← List.getLast?_eq_getElem?, hlast]
    · exact (checkBlockHeader_some_eq_ok_iff.mp (hextends.header last hlast)).2.1
  · obtain rfl : blocks = blocks' := Option.some.inj (hactive.readChain.symm.trans hfork.active)
    have hbelow := hfork.below
    have hlt : forkHeight < blocks.length := by omega
    exact ⟨forkHeight, blocks[forkHeight], hlt, rfl, List.getElem?_eq_getElem hlt,
      (checkBlockHeader_some_eq_ok_iff.mp (hfork.header _ (List.getElem?_eq_getElem hlt))).2.1⟩

section Steps

variable {nodes : List (TreeNode params)} {g : CBlock} {s s' : CBlockchain × List (TreeNode params)}
  {blocks : List CBlock} {node : TreeNode params}

/-- A block of the tree whose parent is on the active chain has the chain up to its
    parent as its branch. -/
theorem Follows.base_eq (hfollows : Follows nodes g s blocks) (horder : DeliveryOrder nodes)
    (hmined : CBlockchain.minedGenesis params = some g) (hnode : node ∈ nodes) {k : Nat} {parent : CBlock}
    (hparent : blocks[k]? = some parent) (hprev : node.block.header.prevBlockHash = parent.getHash) :
    node.base = blocks.take (k + 1) := by
  have hlt := (List.getElem?_eq_some_iff.mp hparent).1
  have hpos := List.length_pos_of_ne_nil node.base_ne_nil
  have hlast : node.base.getLast? = some (node.base.getLast node.base_ne_nil) := List.getLast?_eq_some_getLast _
  have hheader := node.valid.linked (node.base.length - 1) (node.base.getLast node.base_ne_nil) node.block
  rw [List.getElem?_append_left (by omega), ← List.getLast?_eq_getElem?, Nat.sub_add_cancel hpos,
    List.getElem?_concat_length] at hheader
  have hsame := (checkBlockHeader_some_eq_ok_iff.mp (hheader hlast rfl)).2.1
  apply horder.inTree_unique hmined (horder.base_inTree hmined hnode) ((hfollows.inTree k hlt).mono hfollows.seen)
    hlast (getLast?_take_succ hparent)
  rw [← hprev]
  exact hsame.symm

/-- A block of the tree is connected exactly when it is new and sits on the tip, or
    on an active block below the tip with more work than the node records. -/
theorem Follows.joins_iff (hfollows : Follows nodes g s blocks) (horder : DeliveryOrder nodes)
    (hmined : CBlockchain.minedGenesis params = some g) (hnode : node ∈ nodes) :
    Joins params s.1 node.block node.base ↔ s.1.haveBlock node.block.getHash = false ∧
      (node.block.header.prevBlockHash = s.1.chain.tipHash ∨
        node.block.header.prevBlockHash ∈ s.1.chain.byHeight ∧ s.1.chain.chainWork < node.work) := by
  have hactive := hfollows.active
  have hpos := List.length_pos_of_ne_nil hactive.ne_nil
  obtain ⟨last, hlast, htip⟩ := hactive.tip
  have hat : blocks[blocks.length - 1]? = some last := by rw [← List.getLast?_eq_getElem?, hlast]
  have hvalid := node.valid
  have hheader : ∀ parent : CBlock, node.base.getLast? = some parent →
      checkBlockHeader node.block.header (some parent.header) params = .ok () := by
    intro parent hparent
    have hbasePos := List.length_pos_of_ne_nil node.base_ne_nil
    have hlinked := hvalid.linked (node.base.length - 1) parent node.block
    rw [List.getElem?_append_left (by omega), ← List.getLast?_eq_getElem?, Nat.sub_add_cancel hbasePos,
      List.getElem?_concat_length] at hlinked
    exact hlinked hparent rfl
  constructor
  · intro hjoins
    obtain hextends | ⟨blocks', forkHeight, hfork, hbase⟩ := hjoins
    · refine ⟨hextends.unknown, Or.inl ?_⟩
      obtain hsame : blocks = node.base := Option.some.inj (hactive.readChain.symm.trans hextends.active)
      rw [htip]
      exact (checkBlockHeader_some_eq_ok_iff.mp (hheader last (hsame ▸ hlast))).2.1
    · obtain rfl : blocks = blocks' := Option.some.inj (hactive.readChain.symm.trans hfork.active)
      have hlt : forkHeight < blocks.length := Nat.lt_of_succ_lt hfork.below
      have hparent : blocks[forkHeight]? = some blocks[forkHeight] := List.getElem?_eq_getElem hlt
      refine ⟨hfork.unknown, Or.inr ⟨?_, ?_⟩⟩
      · rw [hactive.byHeight, (checkBlockHeader_some_eq_ok_iff.mp (hfork.header _ hparent)).2.1]
        exact List.mem_map_of_mem (List.getElem_mem hlt)
      · rw [TreeNode.work, TreeNode.path, hbase]
        exact hfork.work
  · intro ⟨hunknown, hwhere⟩
    have hontip : node.block.header.prevBlockHash = s.1.chain.tipHash →
        Joins params s.1 node.block node.base := by
      intro hprev
      have hbase := hfollows.base_eq horder hmined hnode hat (hprev.trans htip)
      rw [Nat.sub_add_cancel hpos, List.take_length] at hbase
      left
      refine ⟨hunknown, hbase ▸ hactive.readChain, hheader, ?_, hvalid.replayed⟩
      intro parent hparent
      have hright : RightBits params node.base := by
        have htake := hvalid.bits.take node.base.length
        rwa [List.take_left] at htake
      exact (hright.snoc_iff hparent node.block).mp hvalid.bits
    obtain hprev | ⟨hmem, hwork⟩ := hwhere
    · exact hontip hprev
    · rw [hactive.byHeight] at hmem
      obtain ⟨parent, hparent, hhash⟩ := List.mem_map.mp hmem
      obtain ⟨k, hk⟩ := List.mem_iff_getElem?.mp hparent
      have hlt := (List.getElem?_eq_some_iff.mp hk).1
      by_cases hlastIndex : k + 1 = blocks.length
      · apply hontip
        obtain rfl : k = blocks.length - 1 := by omega
        rw [hat] at hk
        cases hk
        rw [htip, hhash]
      · have hbase := hfollows.base_eq horder hmined hnode hk hhash.symm
        right
        refine ⟨blocks, k, ⟨hunknown, hactive.readChain, by omega, ?_, ?_, ?_, ?_⟩, hbase⟩
        · intro g' hg'
          obtain ⟨hfirst, hgenesis⟩ := node.base_root hmined
          rw [hbase, List.getElem?_take_of_lt (Nat.succ_pos k), hg', Option.some.injEq] at hfirst
          rw [hfirst]
          exact hgenesis
        · intro parent' hparent'
          exact hheader parent' (hbase ▸ getLast?_take_succ hparent')
        · rw [← hbase]
          exact hvalid.replayed
        · rw [← hbase]
          exact hwork

/-- A delivery either leaves the chain as it is or moves the tip to the block. -/
theorem Follows.step (hfollows : Follows nodes g s blocks) (horder : DeliveryOrder nodes)
    (hmined : CBlockchain.minedGenesis params = some g) (hnode : node ∈ nodes)
    (hdeliver : deliverNode params s node = some s') :
    s'.2 = node :: s.2 ∧ (Joins params s.1 node.block node.base ∧ Follows nodes g s' node.path ∨
      ¬ Joins params s.1 node.block node.base ∧ Follows nodes g s' blocks) := by
  have hactive := hfollows.active
  obtain ⟨bc', hbc, rfl⟩ := Option.map_eq_some_iff.mp hdeliver
  have hseen : ∀ other ∈ node :: s.2, other ∈ nodes := List.forall_mem_cons.mpr ⟨hnode, hfollows.seen⟩
  have hindexed : ∀ hash, bc'.haveBlock hash = true →
      hash = g.getHash ∨ ∃ other ∈ node :: s.2, other.block.getHash = hash := by
    intro hash hhave
    obtain rfl | hold := hactive.haveBlock_deliver hbc hhave
    · exact Or.inr ⟨node, List.mem_cons_self, rfl⟩
    · obtain hgenesis | ⟨other, hother, hhash⟩ := hfollows.indexed hash hold
      · exact Or.inl hgenesis
      · exact Or.inr ⟨other, List.mem_cons_of_mem _ hother, hhash⟩
  have hold : ∀ k < blocks.length, InTree g (node :: s.2) (blocks.take (k + 1)) := fun k hk =>
    (hfollows.inTree k hk).mono fun _ => List.mem_cons_of_mem node
  refine ⟨rfl, ?_⟩
  by_cases hjoins : Joins params s.1 node.block node.base
  · left
    obtain ⟨hinitial, -, hactive'⟩ := hactive.joined hjoins hbc
    refine ⟨hjoins, hactive', hseen, ?_, hindexed, hactive.chainWork_joined hjoins hbc⟩
    intro k hk
    rw [TreeNode.path, List.length_append, List.length_singleton] at hk
    by_cases hnew : k < node.base.length
    · have hle := hinitial.length_le
      rw [TreeNode.path, List.take_append_of_le_length (by omega), List.prefix_iff_eq_take.mp hinitial, List.take_take,
        min_eq_left (by omega)]
      exact hold k (by omega)
    · rw [List.take_of_length_le (by rw [TreeNode.path, List.length_append, List.length_singleton]; omega)]
      exact Or.inr ⟨node, List.mem_cons_self, rfl⟩
  · right
    obtain htouched | ⟨base, hother⟩ := hactive.deliver_joins hbc
    · refine ⟨hjoins, hactive.touched htouched, hseen, hold, hindexed, ?_⟩
      rw [htouched.chain_eq]
      exact hfollows.work
    · obtain ⟨k, parent, hk, hbase, hparent, hprev⟩ := hactive.joins_parent hother
      rw [hbase, ← hfollows.base_eq horder hmined hnode hparent hprev] at hother
      exact absurd hother hjoins

/-- The tip stays the heaviest block exactly when the delivery comes in time. -/
theorem Follows.heaviest_deliver_iff (hfollows : Follows nodes g s blocks) (horder : DeliveryOrder nodes)
    (hmined : CBlockchain.minedGenesis params = some g) (hnode : node ∈ nodes) (hheaviest : Heaviest s)
    (hdeliver : deliverNode params s node = some s') : Heaviest s' ↔ InTime s.1 node := by
  have hactive := hfollows.active
  obtain ⟨hgenesis, hall⟩ := (hactive.heaviest_iff hmined).mp hheaviest
  obtain ⟨tip, htip, htipWork⟩ := hactive.tip_indexed
  have hontip : s.1.chain.tipHash ∈ s.1.chain.byHeight := by
    obtain ⟨last, hlast, htipHash⟩ := hactive.tip
    rw [hactive.byHeight, htipHash]
    exact List.mem_map_of_mem (List.mem_of_getLast? hlast)
  obtain ⟨hseen, ⟨hjoins, hfollows'⟩ | ⟨hjoins, hfollows'⟩⟩ := hfollows.step horder hmined hnode hdeliver
  · -- The block is the new tip, so the old one has to be no heavier.
    have hmoved : Heaviest s' ↔ tip.chainWork ≤ node.work := by
      rw [hfollows'.active.heaviest_iff hmined, hseen, List.forall_mem_cons, htipWork]
      constructor
      · intro ⟨hroot, _, hothers⟩
        have hpos := List.length_pos_of_ne_nil hactive.ne_nil
        have hself := hfollows.inTree (blocks.length - 1) (by omega)
        rw [Nat.sub_add_cancel hpos, List.take_length] at hself
        obtain hchain | ⟨other, hother, hchain⟩ := hself
        · rw [hchain]
          exact hroot
        · rw [← hchain]
          exact hothers other hother
      · intro hle
        exact ⟨hgenesis.trans hle, le_refl _, fun other hother => (hall other hother).trans hle⟩
    obtain ⟨hunknown, hwhere⟩ := (hfollows.joins_iff horder hmined hnode).mp hjoins
    rw [hmoved]
    constructor
    · intro hle _ tip' htip'
      obtain rfl : tip = tip' := Option.some.inj (htip.symm.trans htip')
      refine ⟨fun _ => hle, fun _ _ => Or.inr hle, ?_⟩
      intro hoff
      obtain hprev | ⟨hmem, -⟩ := hwhere
      · rw [hprev] at hoff
        exact absurd hontip hoff
      · exact absurd hmem hoff
    · intro hintime
      obtain ⟨hextend, hfork, -⟩ := hintime hunknown tip htip
      by_cases hprev : node.block.header.prevBlockHash = s.1.chain.tipHash
      · exact hextend hprev
      · obtain ⟨hmem, hwork⟩ := hwhere.resolve_left hprev
        exact (hfork hmem hprev).resolve_left (not_le.mpr hwork)
  · -- The tip stays, so the block has to be no heavier.
    have hkept : Heaviest s' ↔ node.work ≤ tip.chainWork := by
      rw [hfollows'.active.heaviest_iff hmined, hseen, List.forall_mem_cons, htipWork]
      exact ⟨fun h => h.2.1, fun h => ⟨hgenesis, h, hall⟩⟩
    rw [hkept]
    rw [hfollows.joins_iff horder hmined hnode] at hjoins
    constructor
    · intro hle hunknown tip' htip'
      obtain rfl : tip = tip' := Option.some.inj (htip.symm.trans htip')
      refine ⟨fun hprev => absurd ⟨hunknown, Or.inl hprev⟩ hjoins, ?_, fun _ => hle⟩
      intro hmem _
      left
      by_contra hmore
      exact hjoins ⟨hunknown, Or.inr ⟨hmem, not_le.mp hmore⟩⟩
    · intro hintime
      cases hunknown : s.1.haveBlock node.block.getHash with
      | true =>
        obtain hsame | ⟨other, hother, hsame⟩ := hfollows.indexed _ hunknown
        · exact absurd hsame (horder.genesis node hnode g (node.base_root hmined).1)
        · have hpath := horder.distinct other (hfollows.seen other hother) node hnode hsame
          rw [htipWork, TreeNode.work, ← hpath]
          exact hall other hother
      | false =>
        obtain ⟨-, -, hoff⟩ := hintime hunknown tip htip
        by_cases hmem : node.block.header.prevBlockHash ∈ s.1.chain.byHeight
        · have hle : node.work ≤ s.1.chain.chainWork := by
            by_contra hmore
            exact hjoins ⟨hunknown, Or.inr ⟨hmem, not_le.mp hmore⟩⟩
          rw [htipWork]
          exact hle.trans hfollows.work
        · exact hoff hmem

/-- The active tip is the heaviest delivered block in every state of a run over the
    blocks of a tree, parents first, exactly when every delivery comes in time. -/
theorem run_heaviest_iff {start : CBlockchain} {final : CBlockchain × List (TreeNode params)}
    (hfresh : CBlockchain.fresh params = some start) (horder : DeliveryOrder nodes)
    (hrun : transition.run (deliverNode params) (start, []) nodes = some final) :
    (∀ s, transition.Visits (deliverNode params) (start, []) nodes s → Heaviest s) ↔
      ∀ s node, transition.Takes (deliverNode params) (start, []) nodes s node → InTime s.1 node := by
  obtain ⟨g, view, fees, hmined, -, hstart, hactive⟩ := fresh_active hfresh
  apply transition.visits_iff_takes (I := fun s => ∃ blocks, Follows nodes g s blocks) _ _ _ _ hrun
  · intro s node s' hnode ⟨blocks, hfollows⟩ _ hdeliver
    obtain ⟨-, ⟨-, hfollows'⟩ | ⟨-, hfollows'⟩⟩ := hfollows.step horder hmined hnode hdeliver
    · exact ⟨node.path, hfollows'⟩
    · exact ⟨blocks, hfollows'⟩
  · intro s node s' hnode ⟨blocks, hfollows⟩ hheaviest hdeliver
    exact hfollows.heaviest_deliver_iff horder hmined hnode hheaviest hdeliver
  · refine ⟨[g], hactive, ?_, ?_, ?_, ?_⟩
    · intro node hnode
      cases hnode
    · intro k hk
      rw [List.length_singleton] at hk
      obtain rfl : k = 0 := by omega
      exact Or.inl rfl
    · intro hash hhave
      rw [hstart, CBlockchain.haveBlock] at hhave
      obtain hgenesis | hold := eq_or_contains_of_insert hhave
      · exact Or.inl hgenesis
      · cases hold
    · rw [hstart, chainWorkOf_singleton]
      exact le_refl _
  · rw [hactive.heaviest_iff hmined]
    refine ⟨le_refl _, ?_⟩
    intro node hnode
    cases hnode

/-- The deliveries of a run are those of its blocks. -/
theorem run_deliverNode {start final : CBlockchain} (nodes seen : List (TreeNode params))
    (hrun : transition.run (CBlockchain.deliver params) start (nodes.map TreeNode.block) = some final) :
    transition.run (deliverNode params) (start, seen) nodes = some (final, nodes.reverse ++ seen) := by
  induction nodes generalizing start seen with
  | nil =>
    cases hrun
    rfl
  | cons node rest ih =>
    obtain ⟨next, hnext, hrest⟩ := transition.run_cons_eq_some hrun
    rw [transition.run, deliverNode, hnext, Option.map_some, List.reverse_cons, List.append_assoc]
    exact ih (node :: seen) hrest

end Steps

end Tree

section Regtest

variable [Crypto] [Memory]

/-- One more block of the chain tests on a valid branch that stays below the interval. -/
theorem ValidBranch.snoc {base : List CBlock} (hbase : ValidBranch regtestParams base) {last : CBlock}
    (hlast : base.getLast? = some last) {prev : UInt256} {timestamp bits nonce : UInt32} {height : Nat}
    (hheight : base.length = height) (hshort : height < 2016) (hbits : bits = last.header.bits)
    (hheader : checkBlockHeader (regtestBlock prev [regtestCoinbase height] timestamp bits nonce).header
      (some last.header) regtestParams = .ok ()) :
    ValidBranch regtestParams (base ++ [regtestBlock prev [regtestCoinbase height] timestamp bits nonce]) := by
  have hpos : 0 < base.length := List.length_pos_of_ne_nil (by rintro rfl; cases hlast)
  obtain ⟨g, hmined, hfirst, hgenesis⟩ := hbase.root
  refine ⟨⟨g, hmined, ?_, hgenesis⟩, ?_, ?_, ?_, ?_⟩
  · rw [List.getElem?_append_left hpos, hfirst]
  · apply hbase.linked.snoc
    intro last' hlast'
    rw [hlast] at hlast'
    cases hlast'
    exact hheader
  · rw [hbase.bits.snoc_iff hlast]
    have hnoRetarget : regtestParams.powNoRetarget = true := rfl
    rw [requiredBits, getNextWorkRequired, if_pos hnoRetarget]
    exact hbits
  · obtain ⟨view, hview⟩ := hbase.replayed
    rw [replay_append, hview, bind_ok, Nat.zero_add, hheight]
    exact ⟨_, replay_singleton_eq_ok_iff.mpr ⟨0, checkBlock_regtestBlock prev height timestamp bits nonce view⟩⟩
  · rw [List.length_append, List.length_singleton, hheight]
    have hinterval : regtestParams.difficultyInterval = 2016 := rfl
    omega

end Regtest

section

attribute [local instance] toolCrypto zeroMemory

theorem validBranch_genesis : ValidBranch regtestParams [getGenesisBlock regtestParams] := by
  have hheader : checkBlockHeader (getGenesisBlock regtestParams).header none regtestParams = .ok () := by
    rw [← tableCrypto_eq digests_right]
    decide +kernel
  have hreplay : (replay 0 .empty [getGenesisBlock regtestParams]).toOption.isSome = true := by
    rw [← tableCrypto_eq digests_right]
    decide +kernel
  refine ⟨⟨_, ?_, rfl, hheader⟩, ?_, rightBits_singleton _ _, ?_, ?_⟩
  · unfold CBlockchain.minedGenesis
    simp only [hheader]
  · intro i prev blk _ hblk
    simp at hblk
  · cases hview : replay 0 .empty [getGenesisBlock regtestParams] with
    | ok view => exact ⟨view, rfl⟩
    | error e =>
      rw [hview] at hreplay
      cases hreplay
  · decide

/-- The header of a block of the chain tests passes its check on its parent. -/
theorem headers_linked :
    checkBlockHeader firstBlock.header (some (getGenesisBlock regtestParams).header) regtestParams = .ok () ∧
      checkBlockHeader rivalBlock.header (some (getGenesisBlock regtestParams).header) regtestParams = .ok () ∧
        checkBlockHeader rivalChild.header (some rivalBlock.header) regtestParams = .ok () := by
  rw [← tableCrypto_eq digests_right]
  decide +kernel

theorem validBranch_rival : ValidBranch regtestParams [getGenesisBlock regtestParams, rivalBlock] :=
  validBranch_genesis.snoc rfl rfl (by decide) rfl headers_linked.2.1

def firstNode : TreeNode regtestParams where
  base := [getGenesisBlock regtestParams]
  block := firstBlock
  base_ne_nil := List.cons_ne_nil _ _
  valid := validBranch_genesis.snoc rfl rfl (by decide) rfl headers_linked.1

def rivalNode : TreeNode regtestParams where
  base := [getGenesisBlock regtestParams]
  block := rivalBlock
  base_ne_nil := List.cons_ne_nil _ _
  valid := validBranch_rival

def rivalChildNode : TreeNode regtestParams where
  base := [getGenesisBlock regtestParams, rivalBlock]
  block := rivalChild
  base_ne_nil := List.cons_ne_nil _ _
  valid := validBranch_rival.snoc rfl rfl (by decide) rfl headers_linked.2.2

theorem hashes_nodup :
    [(getGenesisBlock regtestParams).getHash, firstBlock.getHash, rivalBlock.getHash, rivalChild.getHash].Nodup := by
  rw [← tableCrypto_eq digests_right]
  decide +kernel

theorem minedGenesis_regtest : CBlockchain.minedGenesis regtestParams = some (getGenesisBlock regtestParams) := by
  obtain ⟨g, hmined, hfirst, -⟩ := validBranch_genesis.root
  cases hfirst
  exact hmined

theorem run_heaviest_first : ∃ start final, CBlockchain.fresh regtestParams = some start ∧
    DeliveryOrder [firstNode] ∧ transition.run (deliverNode regtestParams) (start, []) [firstNode] = some final ∧
    ∀ s, transition.Visits (deliverNode regtestParams) (start, []) [firstNode] s → Heaviest s := by
  obtain ⟨start, bc, hfresh, hrun⟩ := regtestAfter_extended
  have hnodes := run_deliverNode [firstNode] [] hrun
  have hhash : firstBlock.getHash ≠ (getGenesisBlock regtestParams).getHash := by
    intro hsame
    have hnodup := hashes_nodup
    rw [hsame] at hnodup
    simp at hnodup
  have horder : DeliveryOrder [firstNode] := by
    refine ⟨?_, ?_, ?_⟩
    · intro before node after hsplit
      have hnode : node ∈ [firstNode] := hsplit ▸ List.mem_append_right before List.mem_cons_self
      cases List.mem_singleton.mp hnode
      exact Or.inl rfl
    · intro a ha b hb _
      rw [List.mem_singleton.mp ha, List.mem_singleton.mp hb]
    · intro node hnode g hg
      cases List.mem_singleton.mp hnode
      cases hg
      exact hhash
  refine ⟨start, _, hfresh, horder, hnodes, (run_heaviest_iff hfresh horder hnodes).mpr ?_⟩
  intro s node htakes
  obtain ⟨rfl, rfl⟩ | ⟨next, -, htail⟩ := htakes
  · obtain ⟨g, view, fees, hmined, -, hstart, hactive⟩ := fresh_active hfresh
    obtain rfl := Option.some.inj (minedGenesis_regtest.symm.trans hmined)
    obtain ⟨tip, htip, hwork⟩ := hactive.tip_indexed
    have hprev : firstNode.block.header.prevBlockHash = start.chain.tipHash := by rw [hstart]; rfl
    intro _ tip' htip'
    obtain rfl : tip = tip' := Option.some.inj (htip.symm.trans htip')
    refine ⟨fun _ => ?_, fun _ hoff => absurd hprev hoff, fun hoff => ?_⟩
    · rw [hwork]
      decide +kernel
    · rw [hstart] at hoff
      exact absurd List.mem_cons_self hoff
  · cases htail

/-- The node stays on the first block, although the branch of the rival's child has
    one block more: the rival was dropped when it came. -/
theorem heaviest_fails_after_rival : ∃ start final, CBlockchain.fresh regtestParams = some start ∧
    DeliveryOrder [firstNode, rivalNode, rivalChildNode] ∧
    transition.run (deliverNode regtestParams) (start, []) [firstNode, rivalNode, rivalChildNode] = some final ∧
    ¬ Heaviest final := by
  have hevaluated : (regtestAfter [firstBlock, rivalBlock, rivalChild]).map (fun bc =>
      (bc.getIndex bc.chain.tipHash).map fun tip => tip.chainWork.toNat) = some (some 4) := by
    rw [← tableCrypto_eq digests_right]
    decide +kernel
  obtain ⟨bc, hbc, hindex⟩ := Option.map_eq_some_iff.mp hevaluated
  obtain ⟨start, hfresh, hrun⟩ := run_of_regtestAfter hbc
  refine ⟨start, _, hfresh, ⟨?_, ?_, ?_⟩, run_deliverNode [firstNode, rivalNode, rivalChildNode] [] hrun, ?_⟩
  · intro before node after hsplit
    match before, hsplit with
    | [], hsplit =>
      cases hsplit
      exact Or.inl rfl
    | [a], hsplit =>
      cases hsplit
      exact Or.inl rfl
    | [a, b], hsplit =>
      cases hsplit
      exact Or.inr ⟨rivalNode, List.mem_cons_of_mem _ List.mem_cons_self, rfl⟩
    | a :: b :: c :: more, hsplit =>
      simp at hsplit
  · intro a ha b hb hsame
    have hnodup : ([firstNode, rivalNode, rivalChildNode].map fun node => node.block.getHash).Nodup :=
      (List.nodup_cons.mp hashes_nodup).2
    rw [List.inj_on_of_nodup_map hnodup ha hb hsame]
  · intro node hnode g hg hsame
    rw [(node.base_root minedGenesis_regtest).1] at hg
    cases hg
    have hmem : node.block.getHash ∈ [firstNode, rivalNode, rivalChildNode].map fun node => node.block.getHash :=
      List.mem_map_of_mem hnode
    rw [hsame] at hmem
    exact absurd hmem (List.nodup_cons.mp hashes_nodup).1
  · intro ⟨tip, htip, _, hall⟩
    have hwork := hall rivalChildNode (by simp)
    have hchild : rivalChildNode.work.toNat = 6 := by decide +kernel
    rw [htip, Option.map_some, Option.some.injEq] at hindex
    rw [UInt256.le_iff_toNat_le, hchild, hindex] at hwork
    omega

end

end cdx
