import Cdx.Crypto.Arithmetic

namespace cdx

namespace UInt256

/-- `operator==`, and with `blt` the operators that the header derives from the two. -/
def beq (a b : UInt256) : Bool := a.w0 == b.w0 && a.w1 == b.w1 && a.w2 == b.w2 && a.w3 == b.w3

def bne (a b : UInt256) : Bool := !a.beq b

def bgt (a b : UInt256) : Bool := b.blt a

def ble (a b : UInt256) : Bool := !b.blt a

def bge (a b : UInt256) : Bool := !a.blt b

def bitTest (a : UInt256) (n : Nat) : Bool := (a.word (n / 64) >>> UInt64.ofNat (n % 64)) &&& 1 != 0

/-- The two variables of the loop of `div`. -/
structure DivState where
  q : UInt256
  rem : UInt256

/-- The next bit of the dividend comes into the remainder. -/
def takeBit (a : UInt256) (bit : Nat) (rem : UInt256) : UInt256 :=
  let rem := rem.shiftLeft 1
  if a.bitTest bit then { rem with w0 := rem.w0 ||| 1 } else rem

/-- One round of the loop. -/
def divRound (a d : UInt256) (bit : Nat) (s : DivState) : DivState :=
  let rem := a.takeBit bit s.rem
  if d ≤ rem then { q := s.q.setBit bit, rem := rem - d } else { q := s.q, rem := rem }

/-- The loop after its first `n` rounds, from bit 255 down. -/
def divRounds (a d : UInt256) : Nat → DivState
  | 0 => { q := 0, rem := 0 }
  | n + 1 => divRound a d (255 - n) (divRounds a d n)

def div (a d : UInt256) : UInt256 :=
  if d.isZero then 0 else if a < d then 0 else (divRounds a d 256).q

theorem beq_iff (a b : UInt256) : a.beq b = true ↔ a.toNat = b.toNat := by
  simp only [beq, Bool.and_eq_true, beq_iff_eq]
  constructor
  · rintro ⟨⟨⟨h0, h1⟩, h2⟩, h3⟩
    rw [toNat, toNat, h0, h1, h2, h3]
  · intro hsame
    obtain rfl := toNat_injective hsame
    exact ⟨⟨⟨rfl, rfl⟩, rfl⟩, rfl⟩

theorem blt_iff (a b : UInt256) : a.blt b = true ↔ a.toNat < b.toNat := lt_iff_toNat_lt

section Division

variable (a d : UInt256)

theorem bitTest_eq {n : Nat} : a.bitTest n = a.toNat.testBit n := by
  have hlowest := testBit_wordShiftRight (a.word (n / 64)) (j := 0) (Nat.mod_lt n (by decide : 0 < 64))
  rw [Nat.testBit_zero, Nat.add_zero, ← testBit_toNat] at hlowest
  rw [← hlowest, bitTest]
  by_cases hbit : (a.word (n / 64) >>> UInt64.ofNat (n % 64)).toNat % 2 = 1
  · rw [decide_eq_true hbit, bne_iff_ne, ne_eq, ← UInt64.toNat_inj, UInt64.toNat_and, UInt64.toNat_one, Nat.and_one_is_mod, hbit]
    decide
  · rw [decide_eq_false hbit, bne_eq_false_iff_eq, ← UInt64.toNat_inj, UInt64.toNat_and, UInt64.toNat_one, Nat.and_one_is_mod]
    exact Nat.mod_two_ne_one.mp hbit

/-- The next binary digit of the dividend. -/
theorem div_two_pow_succ (x k : Nat) : x / 2 ^ k = 2 * (x / 2 ^ (k + 1)) + (x.testBit k).toNat := by
  rw [Nat.toNat_testBit, Nat.pow_succ, ← Nat.div_div_eq_div_mul]
  omega

theorem top_lt (k : Nat) : a.toNat / 2 ^ (k + 1) < 2 ^ 255 := by
  have ha := a.toNat_lt
  rw [Nat.pow_succ', ← Nat.div_div_eq_div_mul]
  exact (Nat.div_le_self _ _).trans_lt (by omega)

/-- A remainder below `2^255` takes in one more bit without losing one. -/
theorem takeBit_toNat {rem : UInt256} (hrem : rem.toNat < 2 ^ 255) (bit : Nat) :
    (a.takeBit bit rem).toNat = 2 * rem.toNat + (a.toNat.testBit bit).toNat := by
  have hshift : (rem.shiftLeft 1).toNat = 2 * rem.toNat := by
    rw [shiftLeft_toNat, Nat.pow_one, Nat.mod_eq_of_lt (by omega), Nat.mul_comm]
  unfold takeBit
  rw [bitTest_eq]
  split
  next hset =>
    -- The shifted remainder is even, so the bit that is set is its last.
    change ((rem.shiftLeft 1).setBit 0).toNat = _
    rw [setBit_toNat _ (by decide), hshift, hset, Nat.pow_zero, ← Nat.two_pow_add_eq_or_of_lt (i := 1) (by decide)]
    rfl
  next hclear => rw [hshift, Bool.eq_false_of_not_eq_true hclear, Bool.toNat_false, Nat.add_zero]

/-- Bringing one more digit down: the quotient doubles, and takes a divisor that fits. -/
theorem bringDown {d : Nat} (hd : 0 < d) (p : Nat) {b : Nat} (hb : b ≤ 1) :
    (2 * p + b) / d = 2 * (p / d) + (if d ≤ 2 * (p % d) + b then 1 else 0) ∧
      (2 * p + b) % d = 2 * (p % d) + b - (if d ≤ 2 * (p % d) + b then d else 0) := by
  have hp := Nat.div_add_mod p d
  have hlt := Nat.mod_lt p hd
  apply (Nat.div_mod_unique hd).mpr
  split
  next hle => exact ⟨by rw [Nat.mul_add, Nat.mul_left_comm]; omega, by omega⟩
  next hgt => exact ⟨by rw [Nat.add_zero, Nat.mul_left_comm]; omega, by omega⟩

/-- After `n` rounds the loop has divided the top `n` bits of the dividend. -/
theorem divRounds_spec (hd : 0 < d.toNat) {n : Nat} (hn : n ≤ 256) :
    (divRounds a d n).q.toNat = a.toNat / 2 ^ (256 - n) / d.toNat * 2 ^ (256 - n) ∧
      (divRounds a d n).rem.toNat = a.toNat / 2 ^ (256 - n) % d.toNat := by
  induction n with
  | zero =>
    have hzero : a.toNat / 2 ^ (256 - 0) = 0 := Nat.div_eq_of_lt a.toNat_lt
    rw [hzero, Nat.zero_div, Nat.zero_mul, Nat.zero_mod]
    exact ⟨rfl, rfl⟩
  | succ n ih =>
    obtain ⟨hq, hrem⟩ := ih (Nat.le_of_succ_le hn)
    obtain ⟨k, hk⟩ : ∃ k, 256 - n = k + 1 := ⟨255 - n, by omega⟩
    rw [hk] at hq hrem
    have hroom : (divRounds a d n).rem.toNat < 2 ^ 255 := by
      rw [hrem]
      exact (Nat.mod_le _ _).trans_lt (top_lt a k)
    have htaken := takeBit_toNat a hroom k
    have hset : ((divRounds a d n).q.setBit k).toNat = (2 * (a.toNat / 2 ^ (k + 1) / d.toNat) + 1) * 2 ^ k := by
      rw [setBit_toNat _ (by omega), hq, Nat.mul_comm _ (2 ^ (k + 1)),
        ← Nat.two_pow_add_eq_or_of_lt (Nat.pow_lt_pow_right (by decide) (Nat.lt_succ_self k)), Nat.succ_eq_add_one]
      ring
    obtain ⟨hquotient, hremainder⟩ := bringDown hd (a.toNat / 2 ^ (k + 1)) (Bool.toNat_le (a.toNat.testBit k))
    rw [divRounds, show 256 - (n + 1) = k by omega, show 255 - n = k by omega, div_two_pow_succ a.toNat k, hquotient, hremainder]
    rw [hrem] at htaken
    unfold divRound
    simp only [le_iff_toNat_le, htaken]
    split
    next hle => exact ⟨hset, by rw [sub_toNat (by rw [htaken]; exact hle), htaken]⟩
    next hgt =>
      refine ⟨?_, htaken⟩
      rw [hq]
      ring

/-- No round shifts a bit out of the remainder. -/
theorem shiftLeft_divRounds (hd : 0 < d.toNat) {n : Nat} (hn : n < 256) :
    ((divRounds a d n).rem.shiftLeft 1).toNat = 2 * (divRounds a d n).rem.toNat := by
  obtain ⟨k, hk⟩ : ∃ k, 256 - n = k + 1 := ⟨255 - n, by omega⟩
  have hrem := (divRounds_spec a d hd hn.le).2
  rw [hk] at hrem
  have hlt : (divRounds a d n).rem.toNat < 2 ^ 255 := by
    rw [hrem]
    exact (Nat.mod_le _ _).trans_lt (top_lt a k)
  rw [shiftLeft_toNat, Nat.pow_one, Nat.mod_eq_of_lt (by omega), Nat.mul_comm]

theorem div_toNat (hd : 0 < d.toNat) : (a.div d).toNat = a.toNat / d.toNat := by
  unfold div
  have hnonzero : ¬ d.isZero = true := by
    rw [isZero_iff]
    omega
  rw [if_neg hnonzero]
  split
  next hlt => exact (Nat.div_eq_of_lt (lt_iff_toNat_lt.mp hlt)).symm
  next hge =>
    rw [(divRounds_spec a d hd (Nat.le_refl 256)).1, Nat.sub_self, Nat.pow_zero, Nat.div_one, Nat.mul_one]

end Division

/-- The operators compute modulo `2^256`: with numbers they agree on every argument, and
    no round of `div` loses a bit of its remainder. -/
theorem arithmetic_exact (a b : UInt256) :
    (a + b).toNat = (a.toNat + b.toNat) % 2 ^ 256 ∧
    ((a - b).toNat : Int) = ((a.toNat : Int) - b.toNat) % 2 ^ 256 ∧
    (∀ n, (a.shiftLeft n).toNat = a.toNat * 2 ^ n % 2 ^ 256 ∧ (a.shiftRight n).toNat = a.toNat / 2 ^ n) ∧
    (∀ m : UInt64, (a.mul64 m).toNat = a.toNat * m.toNat % 2 ^ 256) ∧
    (∀ d : UInt64, d ≠ 0 → (a.div64 d).toNat = a.toNat / d.toNat ∧ (a.div64Rem d).toNat = a.toNat % d.toNat) ∧
    (∀ e : UInt256, e ≠ 0 → (a.div e).toNat = a.toNat / e.toNat ∧
      ∀ n < 256, ((divRounds a e n).rem.shiftLeft 1).toNat = 2 * (divRounds a e n).rem.toNat) ∧
    ((a.beq b = true ↔ a.toNat = b.toNat) ∧ (a.bne b = true ↔ a.toNat ≠ b.toNat) ∧
      (a.blt b = true ↔ a.toNat < b.toNat) ∧ (a.bgt b = true ↔ b.toNat < a.toNat) ∧
      (a.ble b = true ↔ a.toNat ≤ b.toNat) ∧ (a.bge b = true ↔ b.toNat ≤ a.toNat)) := by
  refine ⟨add_toNat a b, ?_, fun n => ⟨shiftLeft_toNat a n, shiftRight_toNat a n⟩, mul64_toNat a, ?_, ?_, ?_⟩
  · have hb := b.toNat_lt
    rw [sub_toNat_mod]
    omega
  · intro d hd
    exact div64_spec a (Nat.pos_of_ne_zero fun hzero => hd (UInt64.toNat_inj.mp hzero))
  · intro e he
    have hpos : 0 < e.toNat := Nat.pos_of_ne_zero fun hzero => he (toNat_injective hzero)
    exact ⟨div_toNat a e hpos, fun n hn => shiftLeft_divRounds a e hpos hn⟩
  · refine ⟨beq_iff a b, ?_, blt_iff a b, blt_iff b a, ?_, ?_⟩
    · rw [bne, Bool.not_eq_true', ← Bool.not_eq_true, beq_iff]
    · rw [ble, Bool.not_eq_true', ← Bool.not_eq_true, blt_iff, Nat.not_lt]
    · rw [bge, Bool.not_eq_true', ← Bool.not_eq_true, blt_iff, Nat.not_lt]

/-- A divisor above `2^255` goes once into the largest number. -/
theorem arithmetic_exact_large : (⟨0, 0, 0, 0x8000000000000001⟩ : UInt256) ≠ 0 ∧
    ((ofWord 7 - ofWord 9).toNat : Int) = (7 - 9) % 2 ^ 256 ∧
    ((⟨5, 0, 0, 0xffffffffffffffff⟩ : UInt256).div ⟨0, 0, 0, 0x8000000000000001⟩).toNat = 1 := by
  obtain ⟨-, hsub, -⟩ := arithmetic_exact (ofWord 7) (ofWord 9)
  obtain ⟨-, -, -, -, -, hdiv, -⟩ := arithmetic_exact ⟨5, 0, 0, 0xffffffffffffffff⟩ 0
  refine ⟨by decide, hsub, ?_⟩
  rw [(hdiv ⟨0, 0, 0, 0x8000000000000001⟩ (by decide)).1]
  decide

end UInt256

end cdx
