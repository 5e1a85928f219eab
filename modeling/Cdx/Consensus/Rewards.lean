import Cdx.Config.Networks
import Cdx.Consensus.Checked

namespace cdx

def getBlockSubsidy (height : Int) : Int :=
  let halvings := height.tdiv HALVING_INTERVAL
  if halvings ≥ 64 then 0 else INITIAL_BLOCK_REWARD >>> halvings.toNat

def isCoinbaseValueValid (coinbaseValue subsidy fees : Int) : Except Reject Bool := do
  let limit ← addI64 .subsidyPlusFees subsidy fees
  pure (decide (coinbaseValue ≤ limit))

/-- The loop of `GetCumulativeSupplyAt` takes one halving interval at a time and
    stops at the first height without a subsidy. -/
def cumulativeSupplyLoop (height h total : Int) : Int :=
  if h < height then
    let subsidy := getBlockSubsidy h
    if subsidy = 0 then total
    else
      let intervalEnd := (h.tdiv HALVING_INTERVAL + 1) * HALVING_INTERVAL
      let stop := if intervalEnd < height then intervalEnd else height
      cumulativeSupplyLoop height stop (total + subsidy * (stop - h))
  else total
termination_by (height - h).toNat
decreasing_by
  have hend : h < (h.tdiv HALVING_INTERVAL + 1) * HALVING_INTERVAL := by
    have hmod := Int.mul_tdiv_add_tmod h HALVING_INTERVAL
    have hlt := Int.tmod_lt_of_pos h (show 0 < HALVING_INTERVAL by decide)
    rw [Int.add_mul, Int.mul_comm (h.tdiv HALVING_INTERVAL)]
    omega
  split <;> omega

def getCumulativeSupplyAt (height : Int) : Int := cumulativeSupplyLoop height 0 0

end cdx
