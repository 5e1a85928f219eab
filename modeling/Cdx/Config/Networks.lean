import Mathlib

namespace cdx

/-- The parameters of a network that the modelled code reads. The two durations
    divide in the difficulty rule, so a network carries that they are positive. -/
structure ChainParams where
  genesisHashHex : String
  genesisNonce : UInt32
  networkMagic : UInt32
  targetBlockTime : Int
  difficultyInterval : Int
  maxAdjustment : Int
  powNoRetarget : Bool
  minDifficultyBits : UInt32
  targetBlockTime_pos : 0 < targetBlockTime
  difficultyInterval_pos : 0 < difficultyInterval

def CDX_MAINNET_MAGIC : UInt32 := 0xCDA1CD01

def CDX_TESTNET_MAGIC : UInt32 := 0xCDA1CD02

def CDX_REGTEST_MAGIC : UInt32 := 0xCDA1CDFF

/-- Base units in one coin. -/
def COIN : Int := 100000000

def MAX_SUPPLY_BASE : Int := 21000000 * COIN

def TARGET_BLOCK_TIME_MAIN : Int := 600

def DIFFICULTY_INTERVAL : Int := 2016

def MAX_ADJUSTMENT : Int := 4

def INITIAL_BLOCK_REWARD : Int := 50 * COIN

def HALVING_INTERVAL : Int := 210000

def COINBASE_MATURITY : Int := 120

def DEFAULT_TARGET_BITS : UInt32 := 0x1d00ffff

def REGTEST_TARGET_BITS : UInt32 := 0x207fffff

def MAX_TX_COUNT_PER_BLOCK : Nat := 10000

def MAX_MONEY : Int := MAX_SUPPLY_BASE

def mainnetParams : ChainParams where
  genesisHashHex := "000000003c2ec558c762a6b2ed57e3b6aef5bcec8df70defca767f4d94e01643"
  genesisNonce := 983536281
  networkMagic := CDX_MAINNET_MAGIC
  targetBlockTime := TARGET_BLOCK_TIME_MAIN
  difficultyInterval := DIFFICULTY_INTERVAL
  maxAdjustment := MAX_ADJUSTMENT
  powNoRetarget := false
  minDifficultyBits := DEFAULT_TARGET_BITS
  targetBlockTime_pos := by decide
  difficultyInterval_pos := by decide

/-- The test network has no configured genesis hash. -/
def testnetParams : ChainParams :=
  { mainnetParams with genesisHashHex := "", genesisNonce := 0, networkMagic := CDX_TESTNET_MAGIC }

/-- The regression network keeps one easy target for ever. -/
def regtestParams : ChainParams :=
  { mainnetParams with
    genesisHashHex := "6cd19df11dc9155a19c4531cc699d8bfd082a7526c3f73a0d9061bde3c8bcdcd"
    genesisNonce := 0
    networkMagic := CDX_REGTEST_MAGIC
    powNoRetarget := true
    minDifficultyBits := REGTEST_TARGET_BITS }

end cdx
