import Cdx.Crypto.UInt256

namespace cdx

namespace UInt256

/-- Word `i` holds the bits `64 i … 64 i + 63` of the number. -/
theorem word_toNat (a : UInt256) (i : Nat) : (a.word i).toNat = a.toNat / 2 ^ (64 * i) % 2 ^ 64 := by
  have h0 := a.w0.toNat_lt
  have h1 := a.w1.toNat_lt
  have h2 := a.w2.toNat_lt
  have h3 := a.w3.toNat_lt
  rcases i with _ | _ | _ | _ | i
  · simp only [word, toNat]
    omega
  · simp only [word, toNat]
    omega
  · simp only [word, toNat]
    omega
  · simp only [word, toNat]
    omega
  · have hlarge : a.toNat < 2 ^ (64 * (i + 4)) :=
      a.toNat_lt.trans_le (Nat.pow_le_pow_right (by decide) (by omega))
    have hzero : a.word (i + 4) = 0 := rfl
    rw [hzero, Nat.div_eq_of_lt hlarge]
    rfl

theorem testBit_word (a : UInt256) (i j : Nat) :
    (a.word i).toNat.testBit j = (decide (j < 64) && a.toNat.testBit (64 * i + j)) := by
  rw [word_toNat, Nat.testBit_mod_two_pow, Nat.testBit_div_two_pow, Nat.add_comm]

/-- A number is read off its words bit by bit. -/
theorem testBit_toNat (a : UInt256) (i : Nat) : a.toNat.testBit i = (a.word (i / 64)).toNat.testBit (i % 64) := by
  rw [testBit_word, decide_eq_true (Nat.mod_lt i (by decide)), Bool.true_and, Nat.div_add_mod]

theorem word_ofWords {f : Nat → UInt64} {i : Nat} (hi : i < 4) : (ofWords f).word i = f i := by
  rcases i with _ | _ | _ | _ | i
  · rfl
  · rfl
  · rfl
  · rfl
  · omega

/-- A number below `2^256` is that of four words which hold its bits. -/
theorem toNat_ofWords {f : Nat → UInt64} {n : Nat} (hn : n < 2 ^ 256)
    (hbits : ∀ i < 256, (f (i / 64)).toNat.testBit (i % 64) = n.testBit i) : (ofWords f).toNat = n := by
  refine Nat.eq_of_testBit_eq fun i => ?_
  by_cases hi : i < 256
  · rw [testBit_toNat, word_ofWords (by omega), hbits i hi]
  · have hlarge : 2 ^ 256 ≤ 2 ^ i := Nat.pow_le_pow_right (by decide) (Nat.le_of_not_lt hi)
    rw [Nat.testBit_lt_two_pow ((toNat_lt _).trans_le hlarge), Nat.testBit_lt_two_pow (hn.trans_le hlarge)]

theorem toNat_min (a b : UInt256) : (min a b).toNat = min a.toNat b.toNat := by
  rw [min_def, min_def]
  simp only [le_iff_toNat_le]
  split <;> rfl

theorem isZero_iff (a : UInt256) : a.isZero = true ↔ a.toNat = 0 := by
  rw [isZero, beq_iff_eq, UInt64.or_eq_zero_iff, UInt64.or_eq_zero_iff, UInt64.or_eq_zero_iff]
  simp only [toNat, ← UInt64.toNat_inj, UInt64.toNat_zero]
  omega

section Shifts

variable (x : UInt64) {b j : Nat}

theorem testBit_wordShiftLeft (hb : b < 64) (hj : j < 64) :
    (x <<< UInt64.ofNat b).toNat.testBit j = (decide (b ≤ j) && x.toNat.testBit (j - b)) := by
  rw [UInt64.toNat_shiftLeft, UInt64.toNat_ofNat_of_lt' (hb.trans (by decide)), Nat.mod_eq_of_lt hb, Nat.testBit_mod_two_pow,
    decide_eq_true hj, Bool.true_and, Nat.testBit_shiftLeft]

theorem testBit_wordShiftRight (hb : b < 64) : (x >>> UInt64.ofNat b).toNat.testBit j = x.toNat.testBit (b + j) := by
  rw [UInt64.toNat_shiftRight, UInt64.toNat_ofNat_of_lt' (hb.trans (by decide)), Nat.mod_eq_of_lt hb, Nat.testBit_shiftRight]

end Shifts

/-- The left shift multiplies and drops what goes past the fourth word. -/
theorem shiftLeft_toNat (a : UInt256) (n : Nat) : (a.shiftLeft n).toNat = a.toNat * 2 ^ n % 2 ^ 256 := by
  unfold shiftLeft
  by_cases hn : n ≥ 256
  · rw [if_pos hn]
    exact (Nat.mod_eq_zero_of_dvd (Dvd.dvd.mul_left (Nat.pow_dvd_pow 2 hn) _)).symm
  rw [if_neg hn]
  refine toNat_ofWords (Nat.mod_lt _ (by decide)) fun i hi => ?_
  rw [Nat.testBit_mod_two_pow, decide_eq_true hi, Bool.true_and, Nat.testBit_mul_two_pow]
  have hbit : n % 64 < 64 := Nat.mod_lt n (by decide)
  have hj : i % 64 < 64 := Nat.mod_lt i (by decide)
  by_cases hword : i / 64 < n / 64
  · rw [if_pos hword, decide_eq_false (by omega), Bool.false_and]
    exact Nat.zero_testBit _
  rw [if_neg hword]
  -- The bit comes from the word below once the shift inside the word reaches past it.
  by_cases hlow : n % 64 ≤ i % 64
  · have hindex : 64 * (i / 64 - n / 64) + (i % 64 - n % 64) = i - n := by omega
    have hsame : (a.word (i / 64 - n / 64) <<< UInt64.ofNat (n % 64)).toNat.testBit (i % 64) = a.toNat.testBit (i - n) := by
      rw [testBit_wordShiftLeft _ hbit hj, testBit_word, decide_eq_true hlow, decide_eq_true (by omega), hindex,
        Bool.true_and, Bool.true_and]
    rw [decide_eq_true (by omega : n ≤ i), Bool.true_and]
    dsimp only
    split
    next hhigh =>
      rw [UInt64.toNat_or, Nat.testBit_or, hsame, testBit_wordShiftRight _ (by omega), testBit_word,
        decide_eq_false (by omega), Bool.false_and, Bool.or_false]
    next => exact hsame
  · have hnone : (a.word (i / 64 - n / 64) <<< UInt64.ofNat (n % 64)).toNat.testBit (i % 64) = false := by
      rw [testBit_wordShiftLeft _ hbit hj, decide_eq_false hlow, Bool.false_and]
    dsimp only
    split
    next hhigh =>
      have hindex : 64 * (i / 64 - n / 64 - 1) + (64 - n % 64 + i % 64) = i - n := by omega
      rw [UInt64.toNat_or, Nat.testBit_or, hnone, testBit_wordShiftRight _ (by omega), testBit_word,
        decide_eq_true (by omega), hindex, decide_eq_true (by omega : n ≤ i), Bool.false_or]
    next hhigh => rw [hnone, decide_eq_false (by omega), Bool.false_and]

/-- The right shift divides. -/
theorem shiftRight_toNat (a : UInt256) (n : Nat) : (a.shiftRight n).toNat = a.toNat / 2 ^ n := by
  unfold shiftRight
  by_cases hn : n ≥ 256
  · rw [if_pos hn]
    exact (Nat.div_eq_of_lt (a.toNat_lt.trans_le (Nat.pow_le_pow_right (by decide) hn))).symm
  rw [if_neg hn]
  refine toNat_ofWords ((Nat.div_le_self _ _).trans_lt a.toNat_lt) fun i hi => ?_
  rw [Nat.testBit_div_two_pow]
  have hbit : n % 64 < 64 := Nat.mod_lt n (by decide)
  have hj : i % 64 < 64 := Nat.mod_lt i (by decide)
  have hpast {k : Nat} (hk : 256 ≤ k) : a.toNat.testBit k = false :=
    Nat.testBit_lt_two_pow (a.toNat_lt.trans_le (Nat.pow_le_pow_right (by decide) hk))
  by_cases hword : 4 ≤ i / 64 + n / 64
  · rw [if_pos hword, hpast (by omega)]
    exact Nat.zero_testBit _
  rw [if_neg hword]
  -- The bit comes from the word above once the shift inside the word reaches past it.
  by_cases hlow : n % 64 + i % 64 < 64
  · have hindex : 64 * (i / 64 + n / 64) + (n % 64 + i % 64) = i + n := by omega
    have hsame : (a.word (i / 64 + n / 64) >>> UInt64.ofNat (n % 64)).toNat.testBit (i % 64) = a.toNat.testBit (i + n) := by
      rw [testBit_wordShiftRight _ hbit, testBit_word, decide_eq_true hlow, hindex, Bool.true_and]
    dsimp only
    split
    next hhigh =>
      rw [UInt64.toNat_or, Nat.testBit_or, hsame, testBit_wordShiftLeft _ (by omega) hj, decide_eq_false (by omega),
        Bool.false_and, Bool.or_false]
    next => exact hsame
  · have hnone : (a.word (i / 64 + n / 64) >>> UInt64.ofNat (n % 64)).toNat.testBit (i % 64) = false := by
      rw [testBit_wordShiftRight _ hbit, testBit_word, decide_eq_false hlow, Bool.false_and]
    dsimp only
    split
    next hhigh =>
      have hindex : 64 * (i / 64 + n / 64 + 1) + (i % 64 - (64 - n % 64)) = i + n := by omega
      rw [UInt64.toNat_or, Nat.testBit_or, hnone, testBit_wordShiftLeft _ (by omega) hj, decide_eq_true (by omega),
        testBit_word, decide_eq_true (by omega), hindex, Bool.false_or, Bool.true_and, Bool.true_and]
    next hhigh => rw [hnone, hpast (by omega)]

theorem setBit_toNat (a : UInt256) {n : Nat} (hn : n < 256) : (a.setBit n).toNat = a.toNat ||| 2 ^ n := by
  unfold setBit
  refine toNat_ofWords (Nat.or_lt_two_pow a.toNat_lt (Nat.pow_lt_pow_right (by decide) hn)) fun i hi => ?_
  rw [Nat.testBit_or, Nat.testBit_two_pow]
  have hone : (1 : UInt64).toNat = 2 ^ 0 := rfl
  split
  next hword =>
    rw [UInt64.toNat_or, Nat.testBit_or, ← testBit_toNat,
      testBit_wordShiftLeft _ (Nat.mod_lt n (by decide)) (Nat.mod_lt i (by decide)), hone, Nat.testBit_two_pow,
      ← Bool.decide_and]
    congr 2
    rw [eq_iff_iff]
    omega
  next hword => rw [← testBit_toNat, decide_eq_false (by omega), Bool.or_false]

private theorem subWord_spec (x y : UInt64) {borrow : Nat} (hborrow : borrow ≤ 1) :
    (subWord x y borrow).1.toNat + y.toNat + borrow = x.toNat + 2 ^ 64 * (subWord x y borrow).2 ∧
      (subWord x y borrow).2 ≤ 1 := by
  have hx := x.toNat_lt
  have hy := y.toNat_lt
  simp only [subWord, UInt64.toNat_sub, UInt64.toNat_ofNat']
  split <;> omega

/-- The borrow loop subtracts modulo `2^256`. -/
theorem sub_toNat_mod (a b : UInt256) : (a - b).toNat = (a.toNat + (2 ^ 256 - b.toNat)) % 2 ^ 256 := by
  obtain ⟨h0, hb0⟩ := subWord_spec a.w0 b.w0 (Nat.zero_le 1)
  obtain ⟨h1, hb1⟩ := subWord_spec a.w1 b.w1 hb0
  obtain ⟨h2, hb2⟩ := subWord_spec a.w2 b.w2 hb1
  obtain ⟨h3, hb3⟩ := subWord_spec a.w3 b.w3 hb2
  have hlt := (a - b).toNat_lt
  have hb := b.toNat_lt
  rw [show a - b = sub a b from rfl] at hlt ⊢
  simp only [toNat, sub] at hlt hb ⊢
  omega

theorem sub_toNat {a b : UInt256} (hle : b.toNat ≤ a.toNat) : (a - b).toNat = a.toNat - b.toNat := by
  have ha := a.toNat_lt
  rw [sub_toNat_mod]
  omega

private theorem mulWord_spec (x m : UInt64) (carry : Nat) :
    (mulWord x m carry).1.toNat + 2 ^ 64 * (mulWord x m carry).2 = x.toNat * m.toNat + carry := by
  simp only [mulWord, UInt64.toNat_ofNat', Nat.shiftRight_eq_div_pow]
  omega

/-- The product is exact modulo `2^256`. -/
theorem mul64_toNat (a : UInt256) (m : UInt64) : (a.mul64 m).toNat = a.toNat * m.toNat % 2 ^ 256 := by
  have h0 := mulWord_spec a.w0 m 0
  have h1 := mulWord_spec a.w1 m (mulWord a.w0 m 0).2
  have h2 := mulWord_spec a.w2 m (mulWord a.w1 m (mulWord a.w0 m 0).2).2
  have h3 := mulWord_spec a.w3 m (mulWord a.w2 m (mulWord a.w1 m (mulWord a.w0 m 0).2).2).2
  have hproduct : a.toNat * m.toNat = a.w0.toNat * m.toNat + 2 ^ 64 * (a.w1.toNat * m.toNat) +
      2 ^ 128 * (a.w2.toNat * m.toNat) + 2 ^ 192 * (a.w3.toNat * m.toNat) := by
    rw [toNat]
    ring
  have hlt := (a.mul64 m).toNat_lt
  rw [hproduct]
  simp only [toNat, mul64] at hlt ⊢
  omega

private theorem divWord_spec {acc : Nat} (x : UInt64) {d : UInt64} (hacc : acc < d.toNat) :
    (divWord acc x d).1.toNat * d.toNat + (divWord acc x d).2 = 2 ^ 64 * acc + x.toNat ∧
      (divWord acc x d).2 < d.toNat := by
  have hdividend : acc <<< 64 ||| x.toNat = 2 ^ 64 * acc + x.toNat := by
    rw [Nat.two_pow_add_eq_or_of_lt x.toNat_lt, Nat.shiftLeft_eq, Nat.mul_comm]
  have hquotient : (2 ^ 64 * acc + x.toNat) / d.toNat < 2 ^ 64 := by
    rw [Nat.div_lt_iff_lt_mul (by omega)]
    have hx := x.toNat_lt
    have hmul : 2 ^ 64 * (acc + 1) ≤ 2 ^ 64 * d.toNat := Nat.mul_le_mul_left _ hacc
    omega
  simp only [divWord, hdividend, UInt64.toNat_ofNat', Nat.mod_eq_of_lt hquotient]
  exact ⟨Nat.div_add_mod' _ _, Nat.mod_lt _ (by omega)⟩

/-- The long division by a word is exact, and leaves the remainder. -/
theorem div64_spec (a : UInt256) {d : UInt64} (hd : 0 < d.toNat) :
    (a.div64 d).toNat = a.toNat / d.toNat ∧ (a.div64Rem d).toNat = a.toNat % d.toNat := by
  obtain ⟨h3, hr3⟩ := divWord_spec a.w3 hd
  obtain ⟨h2, hr2⟩ := divWord_spec a.w2 hr3
  obtain ⟨h1, hr1⟩ := divWord_spec a.w1 hr2
  obtain ⟨h0, hr0⟩ := divWord_spec a.w0 hr1
  have hrem : (a.div64Rem d).toNat = _ := UInt64.toNat_ofNat_of_lt' (hr0.trans d.toNat_lt)
  have hdivides : (a.div64Rem d).toNat + d.toNat * (a.div64 d).toNat = a.toNat := by
    rw [hrem]
    simp only [div64, toNat, Nat.mul_add]
    linarith
  rw [← hrem] at hr0
  obtain ⟨hquotient, hremainder⟩ := (Nat.div_mod_unique hd).mpr ⟨hdivides, hr0⟩
  exact ⟨hquotient.symm, hremainder.symm⟩

theorem div64_toNat (a : UInt256) {d : UInt64} (hd : 0 < d.toNat) : (a.div64 d).toNat = a.toNat / d.toNat :=
  (div64_spec a hd).1

/-- The inner loop of `highestBit`: it ends at the top bit among those it looks at. -/
theorem highestBitOfWord_spec (x : UInt64) {n : Nat} (hn : n ≤ 64) :
    (highestBitOfWord x n = none ∧ ∀ j < n, x.toNat.testBit j = false) ∨
      ∃ b < n, highestBitOfWord x n = some b ∧ x.toNat.testBit b = true ∧ ∀ j < n, b < j → x.toNat.testBit j = false := by
  induction n with
  | zero => exact Or.inl ⟨rfl, fun j hj => absurd hj (Nat.not_lt_zero j)⟩
  | succ n ih =>
    have htest : (x >>> UInt64.ofNat n) &&& 1 = 1 ↔ x.toNat.testBit n = true := by
      have hlowest := testBit_wordShiftRight x (b := n) (j := 0) hn
      rw [Nat.testBit_zero, Nat.add_zero] at hlowest
      rw [← UInt64.toNat_inj, UInt64.toNat_and, UInt64.toNat_one, Nat.and_one_is_mod, ← hlowest, decide_eq_true_eq]
    unfold highestBitOfWord
    by_cases hbit : x.toNat.testBit n = true
    · rw [if_pos (htest.mpr hbit)]
      exact Or.inr ⟨n, Nat.lt_succ_self n, rfl, hbit, fun j hj hnj => by omega⟩
    · rw [if_neg fun h => hbit (htest.mp h)]
      have hclear : x.toNat.testBit n = false := Bool.eq_false_of_not_eq_true hbit
      have hextend {P : Nat → Prop} (hbelow : ∀ j < n, P j → x.toNat.testBit j = false) :
          ∀ j < n + 1, P j → x.toNat.testBit j = false := by
        intro j hj hP
        rcases Nat.lt_succ_iff_lt_or_eq.mp hj with hlt | rfl
        · exact hbelow j hlt hP
        · exact hclear
      rcases ih (by omega) with ⟨hnone, hbelow⟩ | ⟨b, hb, hsome, hset, hbelow⟩
      · exact Or.inl ⟨hnone, fun j hj => hextend (P := fun _ => True) (fun j hj _ => hbelow j hj) j hj trivial⟩
      · exact Or.inr ⟨b, hb.trans (Nat.lt_succ_self n), hsome, hset, hextend hbelow⟩

/-- The outer loop, over the words below `i`. -/
theorem highestBitFrom_spec (a : UInt256) {i : Nat} (hi : i ≤ 4) :
    (highestBitFrom a i = none ∧ ∀ j < 64 * i, a.toNat.testBit j = false) ∨
      ∃ b, highestBitFrom a i = some b ∧ a.toNat.testBit b = true ∧ ∀ j < 64 * i, b < j → a.toNat.testBit j = false := by
  induction i with
  | zero => exact Or.inl ⟨rfl, fun j hj => absurd hj (Nat.not_lt_zero j)⟩
  | succ i ih =>
    have hword {j : Nat} (hj : j < 64 * (i + 1)) (hij : 64 * i ≤ j) :
        a.toNat.testBit j = (a.word i).toNat.testBit (j - 64 * i) := by
      rw [testBit_word, decide_eq_true (by omega), Bool.true_and, Nat.add_sub_cancel' hij]
    unfold highestBitFrom
    rcases highestBitOfWord_spec (a.word i) (Nat.le_refl 64) with ⟨hnone, hclear⟩ | ⟨b, hb, hsome, hset, habove⟩
    · have hextend {j : Nat} (hj : j < 64 * (i + 1)) (hij : 64 * i ≤ j) : a.toNat.testBit j = false := by
        rw [hword hj hij, hclear _ (by omega)]
      rw [hnone]
      rcases ih (by omega) with ⟨hnone', hbelow⟩ | ⟨b, hsome, hset, hbelow⟩
      · refine Or.inl ⟨hnone', fun j hj => ?_⟩
        by_cases hij : 64 * i ≤ j
        · exact hextend hj hij
        · exact hbelow j (by omega)
      · refine Or.inr ⟨b, hsome, hset, fun j hj hbj => ?_⟩
        by_cases hij : 64 * i ≤ j
        · exact hextend hj hij
        · exact hbelow j (by omega) hbj
    · rw [hsome]
      refine Or.inr ⟨i * 64 + b, rfl, ?_, fun j hj hbj => ?_⟩
      · rw [hword (by omega) (by omega), show i * 64 + b - 64 * i = b by omega]
        exact hset
      · rw [hword hj (by omega)]
        exact habove _ (by omega) (by omega)

/-- The bit length is the number of binary digits. -/
theorem getBitLength_eq (a : UInt256) : a.getBitLength = a.toNat.size := by
  have hpast {j : Nat} (hj : 256 ≤ j) : a.toNat.testBit j = false :=
    Nat.testBit_lt_two_pow (a.toNat_lt.trans_le (Nat.pow_le_pow_right (by decide) hj))
  unfold getBitLength
  rcases highestBitFrom_spec a (Nat.le_refl 4) with ⟨hnone, hclear⟩ | ⟨b, hsome, hset, habove⟩
  · have hzero : a.toNat = 0 := by
      refine Nat.eq_of_testBit_eq fun j => ?_
      rw [Nat.zero_testBit]
      exact (Nat.lt_or_ge j 256).elim (hclear j) hpast
    rw [hnone, hzero, Nat.size_zero]
  · rw [hsome]
    refine Nat.le_antisymm (Nat.lt_size.mpr (Nat.ge_two_pow_of_testBit hset)) (Nat.size_le.mpr ?_)
    refine Nat.lt_pow_two_of_testBit _ fun j hj => ?_
    exact (Nat.lt_or_ge j 256).elim (fun hlt => habove j hlt hj) hpast

end UInt256

end cdx
