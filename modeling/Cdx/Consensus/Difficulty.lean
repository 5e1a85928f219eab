import Cdx.Crypto.UInt256
import Cdx.Config.Networks

namespace cdx

def targetFromBits (bits : UInt32) : UInt256 := UInt256.setCompact bits

/-- A hash meets a target when it does not exceed it; the zero target is never met. -/
def checkProofOfWork (hash : UInt256) (bits : UInt32) : Bool :=
  let target := targetFromBits bits
  if target.isZero then false else decide (hash ≤ target)

def getNextWorkRequired (lastBlockTime lastBlockHeight : Int) (lastBits : UInt32)
    (firstBlockTimeOfInterval : Int) (params : ChainParams) : UInt32 :=
  if params.powNoRetarget then lastBits
  else if (lastBlockHeight + 1).tmod params.difficultyInterval ≠ 0 then lastBits
  else
    let actualTime := lastBlockTime - firstBlockTimeOfInterval
    let quarter := params.targetBlockTime.tdiv 4
    let actualTime := if actualTime < quarter then quarter else actualTime
    let expectedTime := params.targetBlockTime * params.difficultyInterval
    let longest := expectedTime * params.maxAdjustment
    let actualTime := if actualTime > longest then longest else actualTime
    let target := targetFromBits lastBits
    let newTarget := (target.mul64 (UInt64.ofInt actualTime)).div64 (UInt64.ofInt expectedTime)
    let maxTarget := targetFromBits params.minDifficultyBits
    (if newTarget > maxTarget then maxTarget else newTarget).getCompact

/-- The work a block with these bits adds to its chain. -/
def getBlockWork (bits : UInt32) : UInt256 := UInt256.chainWorkOfTarget (targetFromBits bits)

end cdx
