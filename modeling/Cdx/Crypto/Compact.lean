import Cdx.Crypto.Arithmetic
import Cdx.Lib.TopBits

namespace cdx

namespace UInt256

open topBits

/-- The number of bytes of a number. -/
def byteLength (a : UInt256) : Nat := (a.getBitLength + 7) / 8

/-- The low bits that the compact form has no room for. -/
def compactDrop (size : Nat) : Nat := 8 * (size / 8 - 2)

theorem compactDrop_lt (size : Nat) (hsize : 0 < size) : compactDrop size < size := by
  unfold compactDrop
  omega

/-- The mantissa of a number: what is left of it in three bytes, the sign bit clear. -/
def mantissa (x : Nat) : Nat := align 24 (8 * (x.size / 8 + 1)) x

theorem mantissa_lt (x : Nat) : mantissa x < 2 ^ 23 := by
  have hx : x < 2 ^ (8 * (x.size / 8 + 1) - 1) := Nat.size_le.mp (by omega)
  have hlt := align_lt (k := 24) hx (n := 8 * (x.size / 8 + 1)) (by omega)
  rwa [show 8 * (x.size / 8 + 1) - 1 + 24 - 8 * (x.size / 8 + 1) = 23 by omega] at hlt

/-- The size goes into the top byte. -/
theorem packSize_toNat {c : UInt32} {n : Nat} (hc : c.toNat < 2 ^ 24) (hn : n < 256) :
    (c ||| (UInt32.ofNat n <<< 24)).toNat = 2 ^ 24 * n + c.toNat := by
  have hshift : (UInt32.ofNat n <<< 24).toNat = 2 ^ 24 * n := by
    rw [UInt32.toNat_shiftLeft, UInt32.toNat_ofNat', Nat.shiftLeft_eq]
    change n % 2 ^ 32 * 2 ^ 24 % 2 ^ 32 = _
    omega
  rw [UInt32.toNat_or, hshift, Nat.or_comm, Nat.two_pow_add_eq_or_of_lt hc]

theorem signBit_iff {c : UInt32} (hc : c.toNat < 2 ^ 24) : c &&& 0x00800000 ≠ 0 ↔ 2 ^ 23 ≤ c.toNat := by
  rw [ne_eq, ← UInt32.toNat_inj, UInt32.toNat_and]
  change ¬ c.toNat &&& 2 ^ 23 = 0 ↔ _
  rw [Nat.and_two_pow, Nat.testBit_eq_decide_div_mod_eq]
  by_cases hbit : 2 ^ 23 ≤ c.toNat
  · rw [decide_eq_true (by omega)]
    exact iff_of_true (by decide) hbit
  · rw [decide_eq_false (by omega)]
    exact iff_of_false (by decide) hbit

/-- The three bytes that `getCompact` starts from. -/
theorem leadingBytes_toNat {a : UInt256} {n : Nat} (hn : a.toNat < 2 ^ (8 * n)) :
    (if n ≤ 3 then a.w0.toUInt32 <<< UInt32.ofNat (8 * (3 - n)) else (a.shiftRight (8 * (n - 3))).w0.toUInt32).toNat =
      align 24 (8 * n) a.toNat := by
  have hlow (b : UInt256) (hb : b.toNat < 2 ^ 24) : b.w0.toUInt32.toNat = b.toNat := by
    have hword := b.word_toNat 0
    rw [UInt64.toNat_toUInt32, show b.w0 = b.word 0 from rfl, hword]
    omega
  have hbound := align_lt (k := 24) hn (n := 8 * n) (by omega)
  rw [show 8 * n + 24 - 8 * n = 24 by omega] at hbound
  split
  next hsmall =>
    have hlt : a.toNat < 2 ^ 24 := hn.trans_le (Nat.pow_le_pow_right (by decide) (by omega))
    have hshift : (UInt32.ofNat (8 * (3 - n))).toNat % 32 = 24 - 8 * n := by
      rw [UInt32.toNat_ofNat']
      omega
    rw [align_of_ge (by omega)] at hbound ⊢
    rw [UInt32.toNat_shiftLeft, hlow a hlt, hshift, Nat.shiftLeft_eq, Nat.mod_eq_of_lt (hbound.trans (by decide))]
  next hlarge =>
    have hshift := a.shiftRight_toNat (8 * (n - 3))
    rw [show 8 * (n - 3) = 8 * n - 24 by omega] at hshift ⊢
    rw [align_of_le (by omega)] at hbound ⊢
    rw [hlow _ (by rwa [hshift]), hshift]

/-- The compact form: a size in the top byte, and the mantissa below it. -/
theorem getCompact_toNat {a : UInt256} (ha : 0 < a.toNat) :
    a.getCompact.toNat = 2 ^ 24 * (a.toNat.size / 8 + 1) + mantissa a.toNat := by
  have hsize : 0 < a.toNat.size := Nat.size_pos.mpr ha
  have htop : a.toNat.size ≤ 256 := Nat.size_le.mpr a.toNat_lt
  have hn : a.toNat < 2 ^ (8 * ((a.toNat.size + 7) / 8)) := Nat.size_le.mp (by omega)
  have hlead := leadingBytes_toNat hn
  have hbound := align_lt (k := 24) hn (n := 8 * ((a.toNat.size + 7) / 8)) (by omega)
  rw [Nat.add_sub_cancel_left, ← hlead] at hbound
  unfold getCompact
  simp only [getBitLength_eq]
  rw [if_neg (by omega)]
  -- The mantissa starts with the sign bit exactly when the bits fill their bytes.
  by_cases hfull : a.toNat.size % 8 = 0
  · have hsign : 2 ^ 23 ≤ align 24 (8 * ((a.toNat.size + 7) / 8)) a.toNat := by
      have hle := le_align (k := 24) (Nat.lt_size.mp (Nat.sub_one_lt_of_lt hsize))
        (n := 8 * ((a.toNat.size + 7) / 8)) (by omega)
      rwa [show a.toNat.size - 1 + 24 - 8 * ((a.toNat.size + 7) / 8) = 23 by omega] at hle
    rw [← hlead, ← signBit_iff hbound] at hsign
    have hmantissa : align 24 (8 * ((a.toNat.size + 7) / 8)) a.toNat / 2 ^ 8 = mantissa a.toNat := by
      rw [align_div, mantissa]
      congr 1
      omega
    have hbyte (c : UInt32) : (c >>> 8).toNat = c.toNat / 2 ^ 8 := by
      rw [UInt32.toNat_shiftRight, Nat.shiftRight_eq_div_pow]
      rfl
    rw [if_pos hsign, packSize_toNat (by rw [hbyte]; omega) (by omega), hbyte, hlead, hmantissa]
    omega
  · have hmantissa : align 24 (8 * ((a.toNat.size + 7) / 8)) a.toNat = mantissa a.toNat := by
      rw [mantissa]
      congr 1
      omega
    have hclear : ¬ 2 ^ 23 ≤ align 24 (8 * ((a.toNat.size + 7) / 8)) a.toNat := by
      rw [hmantissa]
      exact Nat.not_le_of_lt (mantissa_lt a.toNat)
    rw [← hlead, ← signBit_iff hbound] at hclear
    rw [if_neg hclear, packSize_toNat hbound (by omega), hlead, hmantissa]
    omega

/-- The size in the top byte of the compact form. -/
theorem compactSize_toNat (c : UInt32) : (c >>> 24).toNat = c.toNat / 2 ^ 24 := by
  rw [UInt32.toNat_shiftRight, Nat.shiftRight_eq_div_pow]
  rfl

/-- The mantissa below it, without the sign bit. -/
theorem compactWord_toNat (c : UInt32) : (c &&& 0x007fffff).toNat = c.toNat % 2 ^ 23 := by
  rw [UInt32.toNat_and]
  exact Nat.and_two_pow_sub_one_eq_mod c.toNat 23

theorem setCompact_toNat (c : UInt32) : (setCompact c).toNat =
    c.toNat % 2 ^ 23 * 2 ^ (8 * (c.toNat / 2 ^ 24 - 3)) / 2 ^ (8 * (3 - c.toNat / 2 ^ 24)) % 2 ^ 256 := by
  have hsize := compactSize_toNat c
  have hword := compactWord_toNat c
  have hofWord (v : UInt64) : (ofWord v).toNat = v.toNat := by simp [ofWord, toNat]
  have hlt : c.toNat % 2 ^ 23 < 2 ^ 23 := Nat.mod_lt _ (by decide)
  unfold setCompact
  simp only [hsize]
  split
  next hsmall =>
    have hshift : (UInt32.ofNat (8 * (3 - c.toNat / 2 ^ 24))).toNat % 32 = 8 * (3 - c.toNat / 2 ^ 24) := by
      rw [UInt32.toNat_ofNat']
      omega
    have hquotient := Nat.div_le_self (c.toNat % 2 ^ 23) (2 ^ (8 * (3 - c.toNat / 2 ^ 24)))
    rw [hofWord, UInt32.toNat_toUInt64, UInt32.toNat_shiftRight, hword, hshift, Nat.shiftRight_eq_div_pow,
      Nat.sub_eq_zero_of_le hsmall, Nat.mul_zero, Nat.pow_zero, Nat.mul_one,
      Nat.mod_eq_of_lt (hquotient.trans_lt (hlt.trans (by decide)))]
  next hlarge =>
    rw [shiftLeft_toNat, hofWord, UInt32.toNat_toUInt64, hword, Nat.sub_eq_zero_of_le (by omega : 3 ≤ c.toNat / 2 ^ 24),
      Nat.mul_zero, Nat.pow_zero, Nat.div_one]

theorem keep_compactDrop (x : Nat) :
    keep compactDrop x = mantissa x * 2 ^ (8 * (x.size / 8 + 1) - 24) / 2 ^ (24 - 8 * (x.size / 8 + 1)) := by
  rw [mantissa, align_back, keep, compactDrop, show 8 * (x.size / 8 - 2) = 8 * (x.size / 8 + 1) - 24 by omega]

/-- Through the compact form a number loses its low bits. -/
theorem setCompact_getCompact_toNat (a : UInt256) : (setCompact a.getCompact).toNat = keep compactDrop a.toNat := by
  rcases Nat.eq_zero_or_pos a.toNat with hzero | hpos
  · have ha : a = 0 := toNat_injective hzero
    subst ha
    decide
  · have hlt := mantissa_lt a.toNat
    have hsize : a.getCompact.toNat / 2 ^ 24 = a.toNat.size / 8 + 1 := by
      rw [getCompact_toNat hpos]
      omega
    have hword : a.getCompact.toNat % 2 ^ 23 = mantissa a.toNat := by
      rw [getCompact_toNat hpos]
      omega
    have hkeep : keep compactDrop a.toNat < 2 ^ 256 := (keep_le a.toNat).trans_lt a.toNat_lt
    rw [keep_compactDrop] at hkeep ⊢
    rw [setCompact_toNat, hsize, hword]
    rw [show 8 * (a.toNat.size / 8 + 1 - 3) = 8 * (a.toNat.size / 8 + 1) - 24 by omega,
      show 8 * (3 - (a.toNat.size / 8 + 1)) = 24 - 8 * (a.toNat.size / 8 + 1) by omega, Nat.mod_eq_of_lt hkeep]

/-- The compact form depends only on the bits it keeps. -/
theorem getCompact_congr {a b : UInt256} (hsize : a.toNat.size = b.toNat.size)
    (hkeep : a.toNat / 2 ^ compactDrop a.toNat.size = b.toNat / 2 ^ compactDrop b.toNat.size) : a.getCompact = b.getCompact := by
  rcases Nat.eq_zero_or_pos a.toNat with hzero | hpos
  · have hb : b.toNat = 0 := by
      rw [hzero, Nat.size_zero] at hsize
      exact Nat.size_eq_zero.mp hsize.symm
    rw [toNat_injective (hzero.trans hb.symm)]
  · have hpos' : 0 < b.toNat := by rwa [← Nat.size_pos, ← hsize, Nat.size_pos]
    have hmantissa : mantissa a.toNat = mantissa b.toNat := by
      rw [hsize, compactDrop, show 8 * (b.toNat.size / 8 - 2) = 8 * (b.toNat.size / 8 + 1) - 24 by omega] at hkeep
      rw [mantissa, mantissa, align, align, hsize, hkeep]
    apply UInt32.toNat_inj.mp
    rw [getCompact_toNat hpos, getCompact_toNat hpos', hsize, hmantissa]

theorem truncation_le (x : UInt256) : setCompact x.getCompact ≤ x := by
  rw [le_iff_toNat_le, setCompact_getCompact_toNat]
  exact keep_le x.toNat

theorem truncation_mono : Monotone fun x : UInt256 => setCompact x.getCompact := by
  intro x y hle
  rw [le_iff_toNat_le] at hle ⊢
  simp only [setCompact_getCompact_toNat]
  exact keep_mono compactDrop_lt hle

theorem getCompact_truncation (x : UInt256) : (setCompact x.getCompact).getCompact = x.getCompact := by
  have hsize : (setCompact x.getCompact).toNat.size = x.toNat.size := by
    rw [setCompact_getCompact_toNat, size_keep compactDrop_lt]
  refine getCompact_congr hsize ?_
  rw [hsize, setCompact_getCompact_toNat, keep, Nat.mul_div_cancel _ (Nat.two_pow_pos _)]

/-- A truncated number lies below a truncation when it lies below the number itself. -/
theorem truncation_le_truncation_iff (x y : UInt256) :
    setCompact x.getCompact ≤ setCompact y.getCompact ↔ setCompact x.getCompact ≤ y := by
  constructor
  · intro hle
    exact hle.trans (truncation_le y)
  · intro hle
    rw [← getCompact_truncation x]
    exact truncation_mono hle

/-- The compact form truncates, and keeps the order. -/
theorem compact_truncates :
    (∀ x : UInt256, setCompact x.getCompact ≤ x ∧ (x - setCompact x.getCompact).toNat < 256 ^ (x.byteLength - 2) ∧
      (setCompact x.getCompact).getCompact = x.getCompact) ∧
    Monotone fun x : UInt256 => setCompact x.getCompact := by
  refine ⟨fun x => ⟨truncation_le x, ?_, getCompact_truncation x⟩, truncation_mono⟩
  rw [sub_toNat (le_iff_toNat_le.mp (truncation_le x)), setCompact_getCompact_toNat]
  have hpow : 256 ^ (x.byteLength - 2) = 2 ^ (8 * (x.byteLength - 2)) := by rw [Nat.pow_mul]
  rw [hpow, byteLength, getBitLength_eq]
  refine (sub_keep_lt x.toNat).trans_le (Nat.pow_le_pow_right (by decide) ?_)
  unfold compactDrop
  omega

end UInt256

end cdx
