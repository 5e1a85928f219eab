import Cdx.Consensus.Difficulty
import Cdx.Crypto.Arithmetic

namespace cdx

namespace UInt256

/-- The loop divides as long as the remainder has a bit to spare. -/
theorem pow2DivLoop_toNat {d : UInt256} (hd : d.toNat ≤ 2 ^ 255) {bit : Nat} (hbit : bit ≤ 256) {rem q : UInt256}
    (hrem : rem.toNat < d.toNat) (hq : 2 ^ bit ∣ q.toNat) :
    (pow2DivLoop d bit rem q).toNat = q.toNat + rem.toNat * 2 ^ bit / d.toNat := by
  induction bit generalizing rem q with
  | zero => rw [pow2DivLoop, Nat.pow_zero, Nat.mul_one, Nat.div_eq_of_lt hrem, Nat.add_zero]
  | succ bit ih =>
    have hshift : (rem.shiftLeft 1).toNat = 2 * rem.toNat := by
      rw [shiftLeft_toNat, Nat.pow_one, Nat.mod_eq_of_lt (by omega), Nat.mul_comm]
    have hdvd : 2 ^ bit ∣ q.toNat := (Nat.pow_dvd_pow 2 (Nat.le_succ bit)).trans hq
    have hdividend : rem.toNat * 2 ^ (bit + 1) = 2 * rem.toNat * 2 ^ bit := by
      rw [Nat.pow_succ]
      ring
    rw [pow2DivLoop, hdividend]
    simp only [le_iff_toNat_le, hshift]
    split
    next hle =>
      have hsub : (rem.shiftLeft 1 - d).toNat = 2 * rem.toNat - d.toNat := by
        rw [sub_toNat (by rwa [hshift]), hshift]
      have hset : (q.setBit bit).toNat = q.toNat + 2 ^ bit := by
        obtain ⟨k, hk⟩ := hq
        rw [setBit_toNat q hbit, hk, ← Nat.two_pow_add_eq_or_of_lt (Nat.pow_lt_pow_right (by decide) (Nat.lt_succ_self bit))]
      rw [ih (by omega) (by omega) (by rw [hset]; exact (Nat.dvd_add_right hdvd).mpr dvd_rfl), hset, hsub]
      -- One divisor goes into the quotient at this place.
      have hsplit : 2 * rem.toNat * 2 ^ bit = (2 * rem.toNat - d.toNat) * 2 ^ bit + d.toNat * 2 ^ bit := by
        rw [← Nat.add_mul, Nat.sub_add_cancel hle]
      rw [hsplit, Nat.add_mul_div_left _ _ (by omega)]
      omega
    next hlt => rw [ih (by omega) (by omega) hdvd, hshift]

/-- Beyond half of the range the remainder is shifted out before it reaches the divisor. -/
theorem pow2DivLoop_of_large {d : UInt256} (hd : 2 ^ 255 < d.toNat) {bit : Nat} {rem : UInt256} (q : UInt256)
    (hrem : rem.toNat = 0 ∨ rem.toNat * 2 ^ bit = 2 ^ 256) : pow2DivLoop d bit rem q = q := by
  induction bit generalizing rem with
  | zero => rfl
  | succ bit ih =>
    have hnext : (rem.shiftLeft 1).toNat < d.toNat ∧
        ((rem.shiftLeft 1).toNat = 0 ∨ (rem.shiftLeft 1).toNat * 2 ^ bit = 2 ^ 256) := by
      rw [shiftLeft_toNat, Nat.pow_one]
      rcases hrem with hzero | hpower
      · omega
      · rw [Nat.pow_succ', ← Nat.mul_assoc] at hpower
        cases bit with
        | zero => omega
        | succ bit =>
          have hhalf : rem.toNat * 2 ≤ 2 ^ 255 := by
            have hone : 1 ≤ 2 ^ bit := Nat.one_le_two_pow
            rw [Nat.pow_succ, ← Nat.mul_assoc] at hpower
            have hle := Nat.mul_le_mul_left (rem.toNat * 2) hone
            omega
          rw [Nat.mod_eq_of_lt (by omega)]
          exact ⟨by omega, Or.inr hpower⟩
    rw [pow2DivLoop]
    simp only [le_iff_toNat_le]
    rw [if_neg (by omega)]
    exact ih hnext.2

/-- What the work of a target comes to. -/
theorem chainWorkOfTarget_toNat {t : UInt256} (hpos : 1 ≤ t.toNat) (hlt : t.toNat ≤ 2 ^ 256 - 2) :
    (chainWorkOfTarget t).toNat = if t.toNat < 2 ^ 255 then 2 ^ 256 / (t.toNat + 1) else 0 := by
  have hone : (ofWord 1).toNat = 1 := rfl
  have hd : (t + ofWord 1).toNat = t.toNat + 1 := by
    rw [add_toNat, hone]
    omega
  have hnonzero : ¬ (t + ofWord 1).isZero = true := by
    intro hzero
    rw [isZero_iff] at hzero
    omega
  rw [chainWorkOfTarget, pow2Div, if_neg hnonzero]
  split
  next hsmall =>
    have hzero : (0 : UInt256).toNat = 0 := rfl
    rw [pow2DivLoop_toNat (by omega) (Nat.le_refl 256) (by omega) (by rw [hzero]; exact Nat.dvd_zero _), hd, hone, hzero,
      Nat.one_mul, Nat.zero_add]
  next hlarge =>
    rw [pow2DivLoop_of_large (by omega) 0 (Or.inr (by rw [hone, Nat.one_mul]))]
    rfl

/-- The work of a target is exact, and not zero, exactly in the lower half of the range. -/
theorem chainWorkOfTarget_exact_iff {t : UInt256} (hpos : 1 ≤ t.toNat) (hlt : t.toNat ≤ 2 ^ 256 - 2) :
    ((chainWorkOfTarget t).toNat = 2 ^ 256 / (t.toNat + 1) ∧ 1 ≤ (chainWorkOfTarget t).toNat) ↔ t.toNat < 2 ^ 255 := by
  have hquotient : 1 ≤ 2 ^ 256 / (t.toNat + 1) := (Nat.one_le_div_iff (by omega)).mpr (by omega)
  rw [chainWorkOfTarget_toNat hpos hlt]
  split
  next hsmall => exact iff_of_true ⟨rfl, hquotient⟩ hsmall
  next hlarge => exact iff_of_false (fun h => absurd h.2 (by decide)) hlarge

/-- The work of the easiest target of regtest. -/
theorem chainWorkOfTarget_exact_regtest : 1 ≤ (targetFromBits REGTEST_TARGET_BITS).toNat ∧
    (targetFromBits REGTEST_TARGET_BITS).toNat ≤ 2 ^ 256 - 2 ∧
    (chainWorkOfTarget (targetFromBits REGTEST_TARGET_BITS)).toNat = 2 ^ 256 / ((targetFromBits REGTEST_TARGET_BITS).toNat + 1) := by
  have hpos : 1 ≤ (targetFromBits REGTEST_TARGET_BITS).toNat := by decide
  have hlt : (targetFromBits REGTEST_TARGET_BITS).toNat ≤ 2 ^ 256 - 2 := by decide
  exact ⟨hpos, hlt, ((chainWorkOfTarget_exact_iff hpos hlt).mpr (by decide)).1⟩

/-- A target above the middle adds nothing to the work of its chain. -/
theorem chainWorkOfTarget_inexact_high : 1 ≤ (targetFromBits 0x2100ffff).toNat ∧
    (targetFromBits 0x2100ffff).toNat ≤ 2 ^ 256 - 2 ∧ (getBlockWork 0x2100ffff).toNat = 0 ∧
    2 ^ 256 / ((targetFromBits 0x2100ffff).toNat + 1) = 1 := by
  have hpos : 1 ≤ (targetFromBits 0x2100ffff).toNat := by decide
  have hlt : (targetFromBits 0x2100ffff).toNat ≤ 2 ^ 256 - 2 := by decide
  refine ⟨hpos, hlt, ?_, by decide⟩
  rw [getBlockWork, chainWorkOfTarget_toNat hpos hlt, if_neg (by decide)]

end UInt256

end cdx
