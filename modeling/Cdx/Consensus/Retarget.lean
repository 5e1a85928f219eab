import Cdx.Consensus.Difficulty
import Cdx.Crypto.Compact

namespace cdx

open UInt256

theorem ofInt_toNat {v : Int} (hnonneg : 0 ≤ v) (hlt : v < 2 ^ 64) : (UInt64.ofInt v).toNat = v.toNat := by
  rw [UInt64.ofInt, Int.emod_eq_of_lt hnonneg hlt]
  exact UInt64.toNat_ofNat_of_lt' (by change v.toNat < 2 ^ 64; omega)

namespace ChainParams

/-- The networks whose difficulty follows the time their blocks take. -/
def Adjusts (params : ChainParams) : Prop := params = mainnetParams ∨ params = testnetParams

def expectedTime (params : ChainParams) : Int := params.targetBlockTime * params.difficultyInterval

def maxTarget (params : ChainParams) : UInt256 := targetFromBits params.minDifficultyBits

/-- The time of an interval as the adjustment takes it. -/
def clampedTime (params : ChainParams) (elapsed : Int) : Int :=
  min (max elapsed (params.targetBlockTime.tdiv 4)) (params.expectedTime * params.maxAdjustment)

/-- The new target before it is written in compact form. -/
def adjustedTarget (params : ChainParams) (target : UInt256) (elapsed : Int) : UInt256 :=
  min params.maxTarget ((target.mul64 (UInt64.ofInt (params.clampedTime elapsed))).div64 (UInt64.ofInt params.expectedTime))

theorem clampedTime_mono (params : ChainParams) : Monotone params.clampedTime := by
  intro elapsed elapsed' hle
  exact min_le_min_right _ (max_le_max_right _ hle)

namespace Adjusts

variable {params : ChainParams} (hadjusts : params.Adjusts)
include hadjusts

theorem values : params.powNoRetarget = false ∧ params.targetBlockTime.tdiv 4 = 150 ∧ params.expectedTime = 1209600 ∧
    params.maxAdjustment = 4 ∧ params.maxTarget.toNat < 2 ^ 224 := by
  rcases hadjusts with rfl | rfl <;> decide

theorem clampedTime_eq (elapsed : Int) : params.clampedTime elapsed = min (max elapsed 150) 4838400 := by
  obtain ⟨-, hquarter, hexpected, hfactor, -⟩ := hadjusts.values
  rw [clampedTime, hquarter, hexpected, hfactor, show (1209600 : Int) * 4 = 4838400 from rfl]

theorem product_lt {target : UInt256} (htarget : target ≤ params.maxTarget) (elapsed : Int) :
    target.toNat * (params.clampedTime elapsed).toNat < 2 ^ 256 := by
  obtain ⟨-, -, -, -, hmax⟩ := hadjusts.values
  have hlt : target.toNat < 2 ^ 224 := (le_iff_toNat_le.mp htarget).trans_lt hmax
  have htime : (params.clampedTime elapsed).toNat ≤ 4838400 := by
    rw [hadjusts.clampedTime_eq]
    omega
  calc target.toNat * (params.clampedTime elapsed).toNat
      ≤ target.toNat * 4838400 := Nat.mul_le_mul_left _ htime
    _ < 2 ^ 256 := by omega

theorem mul64_clampedTime {target : UInt256} (htarget : target ≤ params.maxTarget) (elapsed : Int) :
    (target.mul64 (UInt64.ofInt (params.clampedTime elapsed))).toNat = target.toNat * (params.clampedTime elapsed).toNat := by
  have htime : (UInt64.ofInt (params.clampedTime elapsed)).toNat = (params.clampedTime elapsed).toNat := by
    rw [hadjusts.clampedTime_eq]
    exact ofInt_toNat (by omega) (by omega)
  rw [mul64_toNat, htime, Nat.mod_eq_of_lt (hadjusts.product_lt htarget elapsed)]

/-- The machine computes the new target exactly. -/
theorem adjustedTarget_toNat {target : UInt256} (htarget : target ≤ params.maxTarget) (elapsed : Int) :
    (params.adjustedTarget target elapsed).toNat =
      min params.maxTarget.toNat (target.toNat * (params.clampedTime elapsed).toNat / params.expectedTime.toNat) := by
  obtain ⟨-, -, hexpected, -⟩ := hadjusts.values
  have hdivisor : (UInt64.ofInt params.expectedTime).toNat = params.expectedTime.toNat := by
    rw [hexpected]
    exact ofInt_toNat (by decide) (by decide)
  have hpos : 0 < (UInt64.ofInt params.expectedTime).toNat := by
    rw [hdivisor, hexpected]
    decide
  rw [adjustedTarget, toNat_min, div64_toNat _ hpos, hadjusts.mul64_clampedTime htarget, hdivisor]

theorem adjustedTarget_mono {target : UInt256} (htarget : target ≤ params.maxTarget) :
    Monotone (params.adjustedTarget target) := by
  intro elapsed elapsed' hle
  rw [le_iff_toNat_le, hadjusts.adjustedTarget_toNat htarget, hadjusts.adjustedTarget_toNat htarget]
  have htime : (params.clampedTime elapsed).toNat ≤ (params.clampedTime elapsed').toNat :=
    Int.toNat_le_toNat (params.clampedTime_mono hle)
  exact min_le_min_left _ (Nat.div_le_div_right (Nat.mul_le_mul_left _ htime))

theorem getNextWorkRequired_eq {height : Int} (hheight : (height + 1).tmod params.difficultyInterval = 0) (last first : Int)
    (lastBits : UInt32) :
    getNextWorkRequired last height lastBits first params =
      (params.adjustedTarget (targetFromBits lastBits) (last - first)).getCompact := by
  obtain ⟨hretarget, -⟩ := hadjusts.values
  have hlow (x y : Int) : (if x < y then y else x) = max x y := by
    split <;> omega
  have hhigh (x y : Int) : (if x > y then y else x) = min x y := by
    split <;> omega
  have htarget (x y : UInt256) : (if x > y then y else x) = min y x := by
    rw [min_def]
    split <;> split <;> grind
  rw [getNextWorkRequired, if_neg (by rw [hretarget]; decide), if_neg (not_not.mpr hheight)]
  simp only [hlow, hhigh, htarget]
  rfl

end Adjusts

/-- At a retarget height the new bits are the compact form of the exact quotient, which grows with the time taken. -/
theorem getNextWorkRequired_exact {params : ChainParams} (hadjusts : params.Adjusts) {lastBits : UInt32}
    (hbits : targetFromBits lastBits ≤ params.maxTarget) {height : Int}
    (hheight : (height + 1).tmod params.difficultyInterval = 0) :
    (∀ last first : Int,
      (targetFromBits lastBits).toNat * (params.clampedTime (last - first)).toNat < 2 ^ 256 ∧
      ((targetFromBits lastBits).mul64 (UInt64.ofInt (params.clampedTime (last - first)))).toNat =
        (targetFromBits lastBits).toNat * (params.clampedTime (last - first)).toNat ∧
      (∃ exact : UInt256,
        exact.toNat = min params.maxTarget.toNat
          ((targetFromBits lastBits).toNat * (params.clampedTime (last - first)).toNat / params.expectedTime.toNat) ∧
        getNextWorkRequired last height lastBits first params = exact.getCompact) ∧
      targetFromBits (getNextWorkRequired last height lastBits first params) ≤ params.maxTarget) ∧
    ∀ last first last' first' : Int, last - first ≤ last' - first' →
      targetFromBits (getNextWorkRequired last height lastBits first params) ≤
        targetFromBits (getNextWorkRequired last' height lastBits first' params) := by
  refine ⟨fun last first => ⟨hadjusts.product_lt hbits _, hadjusts.mul64_clampedTime hbits _, ⟨_,
    hadjusts.adjustedTarget_toNat hbits _, hadjusts.getNextWorkRequired_eq hheight last first lastBits⟩, ?_⟩,
    fun last first last' first' hle => ?_⟩
  · rw [hadjusts.getNextWorkRequired_eq hheight]
    exact (truncation_le _).trans (min_le_left _ _)
  · rw [hadjusts.getNextWorkRequired_eq hheight, hadjusts.getNextWorkRequired_eq hheight]
    exact truncation_mono (hadjusts.adjustedTarget_mono hbits hle)

theorem getNextWorkRequired_exact_mainnet :
    (targetFromBits DEFAULT_TARGET_BITS ≤ mainnetParams.maxTarget ∧ (2015 + 1 : Int).tmod mainnetParams.difficultyInterval = 0) ∧
    targetFromBits (getNextWorkRequired 600 2015 DEFAULT_TARGET_BITS 0 mainnetParams) ≤
      targetFromBits (getNextWorkRequired 1200 2015 DEFAULT_TARGET_BITS 0 mainnetParams) :=
  ⟨by decide, (getNextWorkRequired_exact (.inl rfl) (by decide) (by decide)).2 600 0 1200 0 (by decide)⟩

/-- What the adjustment rule allows of the new bits: a factor of four either way, up to the truncation of the lower bound. -/
def WithinFactorFour (params : ChainParams) (lastBits bits : UInt32) : Prop :=
  setCompact ((targetFromBits lastBits).div64 4).getCompact ≤ targetFromBits bits ∧
    (targetFromBits bits).toNat ≤ min (4 * (targetFromBits lastBits).toNat) params.maxTarget.toNat

namespace Adjusts

variable {params : ChainParams} (hadjusts : params.Adjusts)
include hadjusts

theorem adjustedTarget_le_four {target : UInt256} (htarget : target ≤ params.maxTarget) (elapsed : Int) :
    (params.adjustedTarget target elapsed).toNat ≤ min (4 * target.toNat) params.maxTarget.toNat := by
  have htime : (params.clampedTime elapsed).toNat ≤ 4 * 1209600 := by
    rw [hadjusts.clampedTime_eq]
    omega
  have hquotient : target.toNat * (params.clampedTime elapsed).toNat / 1209600 ≤ 4 * target.toNat := by
    apply Nat.div_le_of_le_mul
    calc target.toNat * (params.clampedTime elapsed).toNat
        ≤ target.toNat * (4 * 1209600) := Nat.mul_le_mul_left _ htime
      _ = 1209600 * (4 * target.toNat) := by ring
  obtain ⟨-, -, hexpected, -⟩ := hadjusts.values
  rw [hadjusts.adjustedTarget_toNat htarget, hexpected, min_comm (4 * target.toNat)]
  exact min_le_min_left _ hquotient

/-- The upper clamp never matters below: past it the new target is above the old one anyway. -/
theorem le_adjustedTarget_iff {target bound : UInt256} (htarget : target ≤ params.maxTarget) (hbound : bound ≤ target)
    (elapsed : Int) :
    bound ≤ params.adjustedTarget target elapsed ↔
      bound.toNat * params.expectedTime ≤ target.toNat * max elapsed (params.targetBlockTime.tdiv 4) := by
  have hmax : bound.toNat ≤ params.maxTarget.toNat := le_iff_toNat_le.mp (hbound.trans htarget)
  have hle : (bound.toNat : Int) ≤ target.toNat := by exact_mod_cast le_iff_toNat_le.mp hbound
  have htime := hadjusts.clampedTime_eq elapsed
  have hnonneg : 0 ≤ params.clampedTime elapsed := by omega
  obtain ⟨-, hquarter, hexpected, -⟩ := hadjusts.values
  have hquotient : bound ≤ params.adjustedTarget target elapsed ↔
      (bound.toNat : Int) * 1209600 ≤ target.toNat * params.clampedTime elapsed := by
    rw [le_iff_toNat_le, hadjusts.adjustedTarget_toNat htarget, hexpected, le_min_iff, and_iff_right hmax,
      Nat.le_div_iff_mul_le (by decide)]
    zify
    rw [Int.toNat_of_nonneg hnonneg]
    rfl
  rw [hquotient, hquarter, hexpected, htime]
  rcases le_total (max elapsed 150) 4838400 with hshort | hlong
  · rw [min_eq_left hshort]
  · rw [min_eq_right hlong]
    constructor
    · intro _
      nlinarith
    · intro _
      omega

end Adjusts

/-- The rule fails only from below, when the interval took much less than a quarter of the expected time. -/
theorem withinFactorFour_iff {params : ChainParams} (hadjusts : params.Adjusts) {lastBits : UInt32}
    (hbits : targetFromBits lastBits ≤ params.maxTarget) {height : Int}
    (hheight : (height + 1).tmod params.difficultyInterval = 0) (last first : Int) :
    params.WithinFactorFour lastBits (getNextWorkRequired last height lastBits first params) ↔
      (setCompact ((targetFromBits lastBits).div64 4).getCompact).toNat * params.expectedTime ≤
        (targetFromBits lastBits).toNat * max (last - first) (params.targetBlockTime.tdiv 4) := by
  have hquarter : (targetFromBits lastBits).div64 4 ≤ targetFromBits lastBits := by
    rw [le_iff_toNat_le, div64_toNat _ (by decide)]
    exact Nat.div_le_self _ _
  have hupper := hadjusts.adjustedTarget_le_four hbits (last - first)
  have htruncated := le_iff_toNat_le.mp (truncation_le (params.adjustedTarget (targetFromBits lastBits) (last - first)))
  rw [WithinFactorFour, hadjusts.getNextWorkRequired_eq hheight,
    ← hadjusts.le_adjustedTarget_iff hbits ((truncation_le _).trans hquarter)]
  rw [targetFromBits.eq_1 (getCompact _), truncation_le_truncation_iff, and_iff_left (htruncated.trans hupper)]

theorem withinFactorFour_mainnet :
    mainnetParams.WithinFactorFour DEFAULT_TARGET_BITS (getNextWorkRequired 302400 2015 DEFAULT_TARGET_BITS 0 mainnetParams) :=
  (withinFactorFour_iff (.inl rfl) (by decide) (by decide) 302400 0).mpr (by decide)

/-- Blocks of an interval that carry one time make the difficulty 8064 times as high. -/
theorem not_withinFactorFour_mainnet :
    0 < targetFromBits DEFAULT_TARGET_BITS ∧ targetFromBits DEFAULT_TARGET_BITS ≤ mainnetParams.maxTarget ∧
    (2015 + 1 : Int).tmod mainnetParams.difficultyInterval = 0 ∧
    ¬ mainnetParams.WithinFactorFour DEFAULT_TARGET_BITS (getNextWorkRequired 0 2015 DEFAULT_TARGET_BITS 0 mainnetParams) := by
  refine ⟨by decide, by decide, by decide, fun hwithin => ?_⟩
  exact absurd hwithin.1 (by decide)

end ChainParams

end cdx
