import Cdx.Blockchain.Blockchain

namespace cdx

structure ReorgResult where
  ok : Bool := false
  error : String := ""
  forkHeight : Int := -1
  disconnected : List UInt256 := []
  connected : List UInt256 := []
deriving DecidableEq

namespace CBlockchain

variable [Crypto] [Memory]

/-- The loop of `TryAcceptBlock` that reads `count` active blocks from height `h` on. -/
def collectFork : Nat → Nat → CBlockchain → Except String (List CBlock) × CBlockchain
  | 0, _, bc => (.ok [], bc)
  | count + 1, h, bc =>
    match bc.getBlockByHeight h with
    | (none, bc) => (.error ("cannot read chain block " ++ toString h), bc)
    | (some blk, bc) =>
      match collectFork count (h + 1) bc with
      | (.error message, bc) => (.error message, bc)
      | (.ok blocks, bc) => (.ok (blk :: blocks), bc)

/-- The loop of `TryAcceptBlock` that validates the fork, at height `h` with the
    view and the hashes of the blocks below. -/
def validateFork (params : ChainParams) : List CBlock → Option CBlockHeader → Nat → CCoinsView → List UInt256 →
    Except Reject (CCoinsView × List UInt256)
  | [], _, _, view, newByHeight => .ok (view, newByHeight)
  | blk :: rest, prevHdr, h, view, newByHeight =>
    match checkBlockHeader blk.header prevHdr params with
    | .error message => .error (.error ("fork validation: " ++ message))
    | .ok () =>
      match checkBlock blk h view with
      | .error (.error message) => .error (.error ("fork block invalid: " ++ message))
      | .error (.overflow sum) => .error (.overflow sum)
      | .ok (outView, _) =>
        validateFork params rest (some blk.header) (h + 1) outView (newByHeight ++ [blk.getHash])

/-- The state replacement of `TryAcceptBlock`. The recorded chain work and the
    chain state file stay as they are. -/
def replaceChain (bc : CBlockchain) (blk : CBlock) (freshView : CCoinsView) (newByHeight : List UInt256) :
    CBlockchain :=
  let height : Int := newByHeight.length - 1
  let chain := { bc.chain with
    view := freshView, height := height, tipHash := blk.getHash, byHeight := newByHeight }
  addIndexEntry { bc with chain := chain } blk height true

/-- The fork branch of `TryAcceptBlock`, for a block whose parent is indexed but not the tip. -/
def acceptFork (params : ChainParams) (blk : CBlock) (prevIdx : CBlockIndex) (bc : CBlockchain) :
    Outcome ReorgResult :=
  let forkWork := prevIdx.chainWork + getBlockWork blk.header.bits
  if forkWork ≤ bc.chain.chainWork then .ok ({ error := "fork has lower chain work" }, bc)
  else
    let forkHeight := prevIdx.height
    match collectFork (forkHeight + 1).toNat 0 bc with
    | (.error message, bc) => .ok ({ error := message }, bc)
    | (.ok blocks, bc) =>
      match validateFork params (blocks ++ [blk]) none 0 {} [] with
      | .error (.error message) => .ok ({ error := message }, bc)
      | .error (.overflow sum) => .error sum
      | .ok (freshView, newByHeight) =>
        let bc := bc.replaceChain blk freshView newByHeight
        .ok ({ ok := true, forkHeight := forkHeight, connected := bc.chain.byHeight }, bc)

def tryAcceptBlock (params : ChainParams) (blk : CBlock) (bc : CBlockchain) : Outcome ReorgResult :=
  if bc.haveBlock blk.getHash then .ok ({ ok := true }, bc)
  else
    match bc.getIndex blk.header.prevBlockHash with
    | none => .ok ({ error := "unknown prev block (need sync)" }, bc)
    | some prevIdx =>
      if blk.header.prevBlockHash = bc.chain.tipHash then
        match acceptBlock params blk (prevIdx.height + 1) bc with
        | .error sum => .error sum
        | .ok (.ok (), bc) => .ok ({ ok := true, connected := [blk.getHash] }, bc)
        | .ok (.error message, bc) => .ok ({ error := message }, bc)
      else acceptFork params blk prevIdx bc

omit [Memory] in
theorem applyBlock_storage (bc : CBlockchain) (blk : CBlock) (height : Int) (prevIdx : CBlockIndex)
    (view : CCoinsView) :
    (bc.applyBlock blk height prevIdx view).storage = (bc.storage.writeBlock blk height).saveChainState view height
      blk.getHash (bc.chain.byHeight ++ [blk.getHash]) := rfl

omit [Memory] in
theorem applyBlock_chain (bc : CBlockchain) (blk : CBlock) (height : Int) (prevIdx : CBlockIndex)
    (view : CCoinsView) :
    (bc.applyBlock blk height prevIdx view).chain =
      { view := view
        height := height
        tipHash := blk.getHash
        byHeight := bc.chain.byHeight ++ [blk.getHash]
        index := bc.chain.index.insert blk.getHash
          (blk.indexEntry height (prevIdx.chainWork + getBlockWork blk.header.bits) false)
        chainWork := prevIdx.chainWork + getBlockWork blk.header.bits } := rfl

omit [Memory] in
theorem replaceChain_storage (bc : CBlockchain) (blk : CBlock) (view : CCoinsView) (hashes : List UInt256) :
    (bc.replaceChain blk view hashes).storage = bc.storage.writeBlock blk (hashes.length - 1) := rfl

end CBlockchain

end cdx
