import Mathlib

namespace topBits

variable {drop : Nat → Nat}

/-- The number with its low bits cleared; how many, its bit length says. -/
def keep (drop : Nat → Nat) (x : Nat) : Nat := x / 2 ^ drop x.size * 2 ^ drop x.size

theorem keep_le (x : Nat) : keep drop x ≤ x := Nat.div_mul_le_self x _

theorem sub_keep_lt (x : Nat) : x - keep drop x < 2 ^ drop x.size := by
  rw [keep, ← Nat.mod_eq_sub_div_mul]
  exact Nat.mod_lt x (Nat.two_pow_pos _)

section Bounded

variable (hdrop : ∀ n, 0 < n → drop n < n)
include hdrop

/-- The top bit stays. -/
theorem le_keep {x n : Nat} (hn : n < x.size) : 2 ^ n ≤ keep drop x := by
  have hsize := hdrop x.size (Nat.zero_lt_of_lt hn)
  obtain ⟨k, hk⟩ : ∃ k, x.size = drop x.size + k + 1 := ⟨x.size - drop x.size - 1, by omega⟩
  have htop : 2 ^ (drop x.size + k) ≤ x := Nat.lt_size.mp (by omega)
  calc 2 ^ n ≤ 2 ^ (drop x.size + k) := Nat.pow_le_pow_right (by decide) (by omega)
    _ = 2 ^ k * 2 ^ drop x.size := by rw [Nat.add_comm, Nat.pow_add]
    _ ≤ x / 2 ^ drop x.size * 2 ^ drop x.size := by
      refine Nat.mul_le_mul_right _ ((Nat.le_div_iff_mul_le (Nat.two_pow_pos _)).mpr ?_)
      rwa [← Nat.pow_add, Nat.add_comm]

theorem size_keep (x : Nat) : (keep drop x).size = x.size := by
  refine Nat.le_antisymm (Nat.size_le_size (keep_le x)) (Nat.le_of_not_lt fun hlt => ?_)
  have htop := le_keep hdrop hlt
  exact absurd (Nat.lt_size.mpr htop) (Nat.lt_irrefl _)

/-- Clearing the low bits keeps the order. -/
theorem keep_mono : Monotone (keep drop) := by
  intro x y hle
  rcases Nat.lt_or_ge x.size y.size with hsize | hsize
  · have hx : x < 2 ^ x.size := Nat.lt_size_self x
    have hy := le_keep hdrop hsize
    exact (keep_le x).trans (hx.le.trans hy)
  · have hsame : x.size = y.size := Nat.le_antisymm (Nat.size_le_size hle) hsize
    rw [keep, keep, hsame]
    exact Nat.mul_le_mul_right _ (Nat.div_le_div_right hle)

end Bounded

/-- A number of `n` bits moved so that it has `k`, up with zeros or down with what falls off. -/
def align (k n x : Nat) : Nat := x / 2 ^ (n - k) * 2 ^ (k - n)

section Align

variable {k n m x : Nat}

theorem align_of_le (hk : k ≤ n) : align k n x = x / 2 ^ (n - k) := by
  rw [align, Nat.sub_eq_zero_of_le hk, Nat.pow_zero, Nat.mul_one]

theorem align_of_ge (hn : n ≤ k) : align k n x = x * 2 ^ (k - n) := by
  rw [align, Nat.sub_eq_zero_of_le hn, Nat.pow_zero, Nat.div_one]

theorem align_lt (hx : x < 2 ^ m) (hm : n ≤ m + k) : align k n x < 2 ^ (m + k - n) := by
  rcases Nat.le_total k n with hk | hk
  · rw [align_of_le hk, Nat.div_lt_iff_lt_mul (Nat.two_pow_pos _), ← Nat.pow_add]
    rwa [show m + k - n + (n - k) = m by omega]
  · rw [align_of_ge hk, show m + k - n = m + (k - n) by omega, Nat.pow_add]
    exact Nat.mul_lt_mul_of_pos_right hx (Nat.two_pow_pos _)

theorem le_align (hx : 2 ^ m ≤ x) (hm : n ≤ m + k) : 2 ^ (m + k - n) ≤ align k n x := by
  rcases Nat.le_total k n with hk | hk
  · rw [align_of_le hk, Nat.le_div_iff_mul_le (Nat.two_pow_pos _), ← Nat.pow_add]
    rwa [show m + k - n + (n - k) = m by omega]
  · rw [align_of_ge hk, show m + k - n = m + (k - n) by omega, Nat.pow_add]
    exact Nat.mul_le_mul_right _ hx

/-- Moved further down. -/
theorem align_div (k n j x : Nat) : align k n x / 2 ^ j = align k (n + j) x := by
  rcases Nat.le_total k n with hk | hk
  · rw [align_of_le hk, align_of_le (by omega), Nat.div_div_eq_div_mul, ← Nat.pow_add, show n - k + j = n + j - k by omega]
  · rw [align_of_ge hk]
    rcases Nat.le_total (k - n) j with hj | hj
    · rw [align_of_le (by omega), show 2 ^ j = 2 ^ (n + j - k) * 2 ^ (k - n) by rw [← Nat.pow_add]; congr 1; omega,
        Nat.mul_div_mul_right _ _ (Nat.two_pow_pos _)]
    · rw [align_of_ge (by omega), show 2 ^ (k - n) = 2 ^ (k - (n + j)) * 2 ^ j by rw [← Nat.pow_add]; congr 1; omega,
        ← Nat.mul_assoc, Nat.mul_div_cancel _ (Nat.two_pow_pos _)]

/-- Moved back, the number has lost what fell off. -/
theorem align_back (k n x : Nat) : align k n x * 2 ^ (n - k) / 2 ^ (k - n) = x / 2 ^ (n - k) * 2 ^ (n - k) := by
  rw [align, Nat.mul_right_comm, Nat.mul_div_cancel _ (Nat.two_pow_pos _)]

end Align

end topBits
