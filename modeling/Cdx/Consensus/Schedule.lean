import Cdx.Consensus.Supply

namespace cdx

/-- A signed 64-bit result; out of range it has no defined value. -/
def checked64 (v : Int) : Option Int := if INT64_MIN ≤ v ∧ v ≤ INT64_MAX then some v else none

theorem checked64_of_bounds {v : Int} (hlow : 0 ≤ v) (hhigh : v ≤ INT64_MAX) : checked64 v = some v := by
  have hmin : INT64_MIN ≤ 0 := by decide
  rw [checked64, if_pos ⟨hmin.trans hlow, hhigh⟩]

/-- The loop of `GetCumulativeSupplyAt` on the machine, for a number of rounds. -/
def cumulativeSupplyMachine : Nat → Int → Int → Int → Option Int
  | 0, _, _, _ => none
  | rounds + 1, height, h, total =>
    if h < height then
      let subsidy := getBlockSubsidy h
      if subsidy = 0 then some total
      else do
        let interval ← checked64 (h.tdiv HALVING_INTERVAL + 1)
        let intervalEnd ← checked64 (interval * HALVING_INTERVAL)
        let stop := if intervalEnd < height then intervalEnd else height
        let blocks ← checked64 (stop - h)
        let paid ← checked64 (subsidy * blocks)
        let total ← checked64 (total + paid)
        cumulativeSupplyMachine rounds height stop total
    else some total

/-- The last interval with a subsidy is the one after thirty-two halvings. -/
theorem halvings_le {h : Nat} (hsubsidy : getBlockSubsidy h ≠ 0) : h / 210000 ≤ 32 := by
  by_contra hlate
  have hpow : 2 ^ 33 ≤ 2 ^ (h / 210000) := Nat.pow_le_pow_right (by decide) (by omega)
  rw [getBlockSubsidy_natCast, Nat.div_eq_of_lt (lt_of_lt_of_le (by decide) hpow)] at hsubsidy
  exact hsubsidy rfl

theorem subsidySum_eq_sum (n : Nat) : subsidySum n = ∑ i ∈ Finset.range n, getBlockSubsidy i := by
  induction n with
  | zero => rfl
  | succ n ih => rw [subsidySum_succ, Finset.sum_range_succ, ih]

/-- A round pays for the rest of an interval, and every number it forms fits. -/
theorem cumulativeSupplyMachine_round {rounds height h n : Nat} (hlt : h < height) (hsubsidy : getBlockSubsidy h ≠ 0)
    (hn : min ((h / 210000 + 1) * 210000) height = h + n) :
    cumulativeSupplyMachine (rounds + 1) height h (subsidySum h) =
      cumulativeSupplyMachine rounds height (h + n : Nat) (subsidySum (h + n)) := by
  have hhalvings := halvings_le hsubsidy
  have hsum := subsidySum_interval (h := h) (n := n) (by omega)
  have hlimit := subsidySum_le (h + n)
  have hstart := subsidySum_nonneg h
  have hpaid : 0 ≤ getBlockSubsidy h * n := Int.mul_nonneg (getBlockSubsidy_bounds h).1 (Int.natCast_nonneg n)
  have hmax : MAX_SUPPLY_BASE ≤ INT64_MAX := by decide
  have hinterval : checked64 ((h : Int).tdiv HALVING_INTERVAL + 1) = some ((h : Int).tdiv HALVING_INTERVAL + 1) := by
    rw [tdiv_halvingInterval]
    exact checked64_of_bounds (by omega) (by rw [INT64_MAX_eq]; omega)
  have hend : checked64 (((h : Int).tdiv HALVING_INTERVAL + 1) * HALVING_INTERVAL) =
      some (((h : Int).tdiv HALVING_INTERVAL + 1) * HALVING_INTERVAL) := by
    rw [tdiv_halvingInterval, HALVING_INTERVAL]
    exact checked64_of_bounds (by omega) (by rw [INT64_MAX_eq]; omega)
  have hblocks : checked64 (((h + n : Nat) : Int) - h) = some (n : Int) := by
    rw [Int.natCast_add, add_sub_cancel_left]
    exact checked64_of_bounds (by omega) (by rw [INT64_MAX_eq]; omega)
  have hproduct : checked64 (getBlockSubsidy h * n) = some (getBlockSubsidy h * n) :=
    checked64_of_bounds hpaid (by omega)
  have htotal : checked64 (subsidySum h + getBlockSubsidy h * n) = some (subsidySum (h + n)) := by
    rw [hsum]
    exact checked64_of_bounds (by omega) (by omega)
  rw [cumulativeSupplyMachine, if_pos (Int.ofNat_lt.mpr hlt)]
  simp only [if_neg hsubsidy]
  rw [hinterval, Option.bind_eq_bind, Option.bind_some, hend, Option.bind_some, intervalStop_eq, hn, hblocks, Option.bind_some,
    hproduct, Option.bind_some, htotal, Option.bind_some]

/-- The invariant of the loop is the exact sum so far. -/
theorem cumulativeSupplyMachine_eq {rounds height h : Nat} (hle : h ≤ height) (hpos : 0 < rounds)
    (hrounds : h < height → 34 ≤ rounds + h / 210000) :
    cumulativeSupplyMachine rounds height h (subsidySum h) = some (subsidySum height) := by
  induction rounds generalizing h with
  | zero => omega
  | succ rounds ih =>
    rcases Nat.eq_or_lt_of_le hle with rfl | hlt
    · rw [cumulativeSupplyMachine, if_neg (lt_irrefl _)]
    · by_cases hsubsidy : getBlockSubsidy h = 0
      · have hrest := subsidySum_of_zero hsubsidy (height - h)
        rw [Nat.add_sub_cancel' hle] at hrest
        rw [cumulativeSupplyMachine, if_pos (Int.ofNat_lt.mpr hlt), hrest]
        exact if_pos hsubsidy
      · have hhalvings := halvings_le hsubsidy
        have hroom := hrounds hlt
        obtain ⟨n, hn⟩ : ∃ n, min ((h / 210000 + 1) * 210000) height = h + n :=
          ⟨min ((h / 210000 + 1) * 210000) height - h, by omega⟩
        rw [cumulativeSupplyMachine_round hlt hsubsidy hn]
        exact ih (by omega) (by omega) (by omega)

/-- No step of the loop overflows, it ends within 34 rounds, and the result is the sum of the subsidies below
    the height. -/
theorem getCumulativeSupplyAt_schedule {height : Int} (hheight : 0 ≤ height) :
    cumulativeSupplyMachine 34 height 0 0 = some (getCumulativeSupplyAt height) ∧
    getCumulativeSupplyAt height = ∑ i ∈ Finset.range height.toNat, getBlockSubsidy i ∧
    getCumulativeSupplyAt height ≤ MAX_SUPPLY_BASE := by
  obtain ⟨n, rfl⟩ := Int.eq_ofNat_of_zero_le hheight
  rw [getCumulativeSupplyAt_eq, Int.toNat_natCast]
  refine ⟨?_, ?_, subsidySum_le n⟩
  · exact cumulativeSupplyMachine_eq (h := 0) (Nat.zero_le n) (by decide) fun _ => by decide
  · exact subsidySum_eq_sum n

theorem getCumulativeSupplyAt_schedule_first :
    cumulativeSupplyMachine 34 210001 0 0 = some (getCumulativeSupplyAt 210001) ∧
      getCumulativeSupplyAt 210001 ≤ MAX_SUPPLY_BASE := by
  have hschedule := getCumulativeSupplyAt_schedule (by decide : (0 : Int) ≤ 210001)
  exact ⟨hschedule.1, hschedule.2.2⟩

end cdx
