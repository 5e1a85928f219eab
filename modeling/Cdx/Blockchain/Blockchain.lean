import Cdx.Blockchain.Genesis
import Cdx.Storage.ChainState

namespace cdx

structure CBlockIndex where
  hash : UInt256 := 0
  prevHash : UInt256 := 0
  height : Int := -1
  bits : UInt32 := 0
  timestamp : UInt32 := 0
  chainWork : UInt256 := 0
  merkleRoot : UInt256 := 0
  isGenesis : Bool := false
deriving DecidableEq

/-- The state of the active chain. -/
structure CChain where
  view : CCoinsView := {}
  index : Std.ExtTreeMap UInt256 CBlockIndex := ∅
  byHeight : List UInt256 := []
  height : Int := -1
  tipHash : UInt256 := 0
  chainWork : UInt256 := 0

structure CBlockchain where
  chain : CChain := {}
  storage : CBlockStorage := {}

/-- What a call that may change the chain returns with the chain it leaves,
    unless a sum overflowed on the way. -/
abbrev Outcome (α : Type) := Except Sum64 (α × CBlockchain)

/-- The index entry of a block. -/
def CBlock.indexEntry [Crypto] (blk : CBlock) (height : Int) (chainWork : UInt256) (isGenesis : Bool) :
    CBlockIndex where
  hash := blk.getHash
  prevHash := blk.header.prevBlockHash
  height := height
  bits := blk.header.bits
  timestamp := blk.header.timestamp
  chainWork := chainWork
  merkleRoot := blk.header.merkleRoot
  isGenesis := isGenesis

namespace CBlockchain

variable [Crypto] [Memory]

def getIndex (bc : CBlockchain) (hash : UInt256) : Option CBlockIndex := bc.chain.index[hash]?

def haveBlock (bc : CBlockchain) (hash : UInt256) : Bool := bc.chain.index.contains hash

def readBlock (bc : CBlockchain) (hash : UInt256) : Option CBlock × CBlockchain :=
  let (blk, storage) := bc.storage.readBlock hash
  (blk, { bc with storage := storage })

/-- The block read through `byHeight[i]`; an `i` past the end reads foreign memory. -/
def readAt (bc : CBlockchain) (i : Nat) : Option CBlock × CBlockchain :=
  match bc.chain.byHeight[i]? with
  | some hash => bc.readBlock hash
  | none => (Memory.readPastEnd bc.chain.byHeight i, bc)

def getBlockByHeight (bc : CBlockchain) (height : Int) : Option CBlock × CBlockchain :=
  if height < 0 ∨ height > bc.chain.height then (none, bc) else bc.readAt height.toNat

/-- The start time of the difficulty interval, as `AcceptBlock` looks it up for
    the block after `prevHeight`. -/
def intervalStartTime (bc : CBlockchain) (params : ChainParams) (prev : CBlockHeader) (prevHeight : Int) :
    Int × CBlockchain :=
  let intervalStartHeight := (prevHeight + 1).tdiv params.difficultyInterval * params.difficultyInterval
  if intervalStartHeight > 0 then
    match bc.readAt intervalStartHeight.toNat with
    | (some firstBlk, bc) => (firstBlk.header.timestamp.toNat, bc)
    | (none, bc) => (prev.timestamp.toNat, bc)
  else (prev.timestamp.toNat, bc)

/-- The state change of `AcceptBlock`, in the order of its assignments. -/
def applyBlock (bc : CBlockchain) (blk : CBlock) (height : Int) (prevIdx : CBlockIndex) (newView : CCoinsView) :
    CBlockchain :=
  let chainWork := prevIdx.chainWork + getBlockWork blk.header.bits
  let chain : CChain := {
    view := newView
    height := height
    tipHash := blk.getHash
    byHeight := bc.chain.byHeight ++ [blk.getHash]
    index := bc.chain.index.insert blk.getHash (blk.indexEntry height chainWork false)
    chainWork := chainWork }
  let storage := bc.storage.writeBlock blk height
  { chain := chain, storage := storage.saveChainState chain.view chain.height chain.tipHash chain.byHeight }

def acceptBlock (params : ChainParams) (blk : CBlock) (height : Int) (bc : CBlockchain) :
    Outcome (Except String Unit) :=
  match bc.getIndex blk.header.prevBlockHash with
  | none => .ok (.error "unknown prev block", bc)
  | some prevIdx =>
    match bc.readBlock blk.header.prevBlockHash with
    | (none, bc) => .ok (.error "cannot read prev block", bc)
    | (some prevBlk, bc) =>
      let prev := prevBlk.header
      match checkBlockHeader blk.header (some prev) params with
      | .error message => .ok (.error message, bc)
      | .ok () =>
        let (firstTime, bc) := bc.intervalStartTime params prev prevIdx.height
        let expectedBits := getNextWorkRequired prev.timestamp.toNat prevIdx.height prev.bits firstTime params
        if blk.header.bits ≠ expectedBits then .ok (.error "incorrect difficulty bits", bc)
        else
          match checkBlock blk height bc.chain.view with
          | .error (.error message) => .ok (.error message, bc)
          | .error (.overflow sum) => .error sum
          | .ok (newView, _) => .ok (.ok (), bc.applyBlock blk height prevIdx newView)

/-- `AddIndexEntry`, which `TryAcceptBlock` calls after it has replaced the chain. -/
def addIndexEntry (bc : CBlockchain) (blk : CBlock) (height : Int) (writeDisk : Bool) : CBlockchain :=
  let prevWork := match bc.getIndex blk.header.prevBlockHash with
    | some prev => prev.chainWork
    | none => 0
  let chainWork := prevWork + getBlockWork blk.header.bits
  let index := bc.chain.index.insert blk.getHash (blk.indexEntry height chainWork (height == 0))
  let bc := { bc with chain := { bc.chain with index := index } }
  if writeDisk then { bc with storage := bc.storage.writeBlock blk height } else bc

/-- The state that `ApplyGenesis` builds from a validated genesis block. -/
def genesisState (bc : CBlockchain) (genesis : CBlock) (view : CCoinsView) : CBlockchain :=
  let hash := genesis.getHash
  let chainWork := getBlockWork genesis.header.bits
  let chain : CChain := {
    view := view
    height := 0
    tipHash := hash
    byHeight := [hash]
    index := bc.chain.index.insert hash { genesis.indexEntry 0 chainWork true with prevHash := 0 }
    chainWork := chainWork }
  let storage := bc.storage.writeBlock genesis 0
  { chain := chain, storage := storage.saveChainState chain.view chain.height chain.tipHash chain.byHeight }

/-- The genesis block of `ApplyGenesis`: the configured one, or a new nonce when
    its header fails the check. -/
def minedGenesis (params : ChainParams) : Option CBlock :=
  let genesis := getGenesisBlock params
  match checkBlockHeader genesis.header none params with
  | .ok () => some genesis
  | .error _ =>
    match mineGenesis genesis.header 0xffffffff 0 with
    | none => none
    | some header => some { genesis with header := header }

def applyGenesis (params : ChainParams) (bc : CBlockchain) : Outcome (Except String Unit) :=
  match minedGenesis params with
  | none => .ok (.error "could not mine genesis block", bc)
  | some genesis =>
    let bc := { bc with chain := { bc.chain with view := {} } }
    match checkBlock genesis 0 bc.chain.view with
    | .error (.error message) => .ok (.error ("genesis validation failed: " ++ message), bc)
    | .error (.overflow sum) => .error sum
    | .ok (outView, _) => .ok (.ok (), bc.genesisState genesis outView)

/-- `index[hash]` of a `std::map`, which adds a default entry for a missing key. -/
def indexAt (index : Std.ExtTreeMap UInt256 CBlockIndex) (hash : UInt256) :
    CBlockIndex × Std.ExtTreeMap UInt256 CBlockIndex :=
  match index[hash]? with
  | some entry => (entry, index)
  | none => ({}, index.insert hash {})

/-- The loop of `LoadFromStorage` that rebuilds the index, at height `i`. -/
def rebuildIndex : List UInt256 → Nat → CBlockStorage → Std.ExtTreeMap UInt256 CBlockIndex →
    Std.ExtTreeMap UInt256 CBlockIndex × CBlockStorage
  | [], _, storage, index => (index, storage)
  | hash :: rest, i, storage, index =>
    match storage.readBlock hash with
    | (none, storage) => rebuildIndex rest (i + 1) storage index
    | (some blk, storage) =>
      let work := getBlockWork blk.header.bits
      if i = 0 then rebuildIndex rest (i + 1) storage (index.insert blk.getHash (blk.indexEntry i work true))
      else
        let (prev, index) := indexAt index blk.header.prevBlockHash
        rebuildIndex rest (i + 1) storage
          (index.insert blk.getHash (blk.indexEntry i (prev.chainWork + work) false))

def loadFromStorage (params : ChainParams) (bc : CBlockchain) : Outcome (Except String Unit) :=
  let state := bc.storage.loadChainState bc.chain.view (-1) 0 []
  let bc := { bc with chain := { bc.chain with view := state.view } }
  if state.ok then
    let (index, storage) := rebuildIndex state.byHeight 0 bc.storage bc.chain.index
    let chain := { bc.chain with
      height := state.height, tipHash := state.tipHash, byHeight := state.byHeight, index := index }
    if index.isEmpty = false then
      let (tip, index) := indexAt index state.tipHash
      .ok (.ok (), { chain := { chain with index := index, chainWork := tip.chainWork }, storage := storage })
    else applyGenesis params { chain := chain, storage := storage }
  else applyGenesis params bc

def init (params : ChainParams) (bc : CBlockchain) : Outcome (Except String Unit) := loadFromStorage params bc

end CBlockchain

end cdx
