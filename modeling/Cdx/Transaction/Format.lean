import Mathlib.Data.List.DropRight
import Mathlib.Data.Nat.Digits.Defs
import Cdx.Transaction.Amount

namespace cdx

open decimal

/-- The magnitude of an amount, without the overflow of negating the least one. -/
def magnitude (baseUnits : Int64) : UInt64 :=
  if baseUnits < 0 then (-(baseUnits + 1)).toUInt64 + 1 else baseUnits.toUInt64

/-- The text without the zeros at its end, and without a point they leave. -/
def dropFraction (s : List Char) : List Char :=
  if '.' ∈ s then
    let s := dropTrailingZeros s
    if s.getLast? = some '.' then s.dropLast else s
  else s

/-- `FormatValue` on the machine. -/
def formatValueInt64 (baseUnits : Int64) : String :=
  let neg := baseUnits < 0
  let abs := magnitude baseUnits
  let whole := abs / 100000000
  let frac := abs % 100000000
  let digits := Nat.toDigits 10 frac.toNat
  let buf :=
    if frac = 0 then Nat.toDigits 10 whole.toNat
    else Nat.toDigits 10 whole.toNat ++ '.' :: (List.replicate (8 - digits.length) '0' ++ digits)
  let s := dropFraction buf
  String.ofList (if neg then '-' :: s else s)

theorem toNat_toUInt64 (v : Int64) : (v.toUInt64.toNat : Int) = v.toInt % 2 ^ 64 := by
  change (v.toBitVec.toNat : Int) = v.toBitVec.toInt % 2 ^ 64
  have hlt := v.toBitVec.isLt
  rw [BitVec.toInt_eq_toNat_cond]
  split <;> omega

theorem magnitude_toNat (v : Int64) : (magnitude v).toNat = v.toInt.natAbs := by
  have hlow := v.le_toInt
  have hhigh := v.toInt_lt
  have hzero : v < 0 ↔ v.toInt < 0 := Int64.lt_iff_toInt_lt
  unfold magnitude
  split
  next hneg =>
    rw [hzero] at hneg
    have hnegated : (-(v + 1)).toInt = -(v.toInt + 1) := by
      have hsucc : (v + 1).toInt = v.toInt + 1 := by
        rw [Int64.toInt_add, Int64.toInt_one, Int.bmod_eq_of_le (by omega) (by omega)]
      rw [Int64.toInt_neg, hsucc, Int.bmod_eq_of_le (by omega) (by omega)]
    have hword := toNat_toUInt64 (-(v + 1))
    rw [UInt64.toNat_add, UInt64.toNat_one]
    omega
  next hnonneg =>
    rw [hzero] at hnonneg
    have hword := toNat_toUInt64 v
    omega

/-- Eight digits, with zeros in front. -/
def paddedDigits (n : Nat) : List Char := List.replicate (8 - (Nat.toDigits 10 n).length) '0' ++ Nat.toDigits 10 n

theorem isDigit_of_mem_paddedDigits {n : Nat} {c : Char} (hc : c ∈ paddedDigits n) : c.isDigit = true := by
  rcases List.mem_append.mp hc with hzero | hdigit
  · rw [List.eq_of_mem_replicate hzero]
    rfl
  · exact Nat.isDigit_of_mem_toDigits (by decide) (by decide) hdigit

theorem ofDigitChars_paddedDigits (n : Nat) : Nat.ofDigitChars 10 (paddedDigits n) 0 = n := by
  rw [paddedDigits, Nat.ofDigitChars_append, Nat.ofDigitChars_replicate_zero, Nat.mul_zero, Nat.ofDigitChars_ten_toDigits]

theorem length_paddedDigits {n : Nat} (hn : n < 100000000) : (paddedDigits n).length = 8 := by
  have hle := Nat.toDigits_length 10 n 8 (by decide) hn
  rw [paddedDigits, List.length_append, List.length_replicate]
  omega

theorem dropTrailingZeros_eq (chars : List Char) : dropTrailingZeros chars = chars.rdropWhile (· == '0') := rfl

theorem exists_zeros (chars : List Char) : ∃ zeros, chars = dropTrailingZeros chars ++ List.replicate zeros '0' := by
  refine ⟨(chars.rtakeWhile (· == '0')).length, ?_⟩
  have hzeros : chars.rtakeWhile (· == '0') = List.replicate (chars.rtakeWhile (· == '0')).length '0' := by
    apply List.eq_replicate_of_mem
    intro c hc
    have hzero := List.mem_rtakeWhile_imp hc
    exact eq_of_beq hzero
  rw [← hzeros, dropTrailingZeros_eq, List.rdropWhile_append_rtakeWhile]

theorem dropTrailingZeros_ne_nil {n : Nat} (hn : n ≠ 0) : dropTrailingZeros (paddedDigits n) ≠ [] := by
  intro hempty
  obtain ⟨zeros, hzeros⟩ := exists_zeros (paddedDigits n)
  have hvalue := ofDigitChars_paddedDigits n
  rw [hzeros, hempty, List.nil_append, Nat.ofDigitChars_replicate_zero] at hvalue
  exact hn hvalue.symm

/-- Zeros are dropped behind the point only. -/
theorem dropTrailingZeros_append (front : List Char) {back : List Char} (hback : dropTrailingZeros back ≠ []) :
    dropTrailingZeros (front ++ back) = front ++ dropTrailingZeros back := by
  have hkept : ¬ (back.reverse.dropWhile (· == '0')).isEmpty = true := by
    intro hempty
    exact hback (List.reverse_eq_nil_iff.mpr (List.isEmpty_iff.mp hempty))
  rw [dropTrailingZeros, List.reverse_append, List.dropWhile_append, if_neg hkept, List.reverse_append, List.reverse_reverse]
  rfl

theorem isDigit_of_mem_dropTrailingZeros {n : Nat} {c : Char} (hc : c ∈ dropTrailingZeros (paddedDigits n)) :
    c.isDigit = true := by
  obtain ⟨zeros, hzeros⟩ := exists_zeros (paddedDigits n)
  apply isDigit_of_mem_paddedDigits
  rw [hzeros]
  exact List.mem_append_left _ hc

theorem dropFraction_digits {chars : List Char} (hchars : ∀ c ∈ chars, c.isDigit = true) : dropFraction chars = chars := by
  have hpoint : '.' ∉ chars := fun hc => isDigit_ne_point (hchars '.' hc) rfl
  rw [dropFraction, if_neg hpoint]

theorem dropFraction_point (front : List Char) {n : Nat} (hn : n ≠ 0) :
    dropFraction (front ++ '.' :: paddedDigits n) = front ++ '.' :: dropTrailingZeros (paddedDigits n) := by
  have hkept := dropTrailingZeros_ne_nil hn
  have hdropped : dropTrailingZeros (front ++ '.' :: paddedDigits n) = front ++ '.' :: dropTrailingZeros (paddedDigits n) := by
    have happend := dropTrailingZeros_append (front ++ ['.']) hkept
    simpa only [List.append_assoc, List.singleton_append] using happend
  have hlast : (front ++ '.' :: dropTrailingZeros (paddedDigits n)).getLast? ≠ some '.' := by
    rw [List.getLast?_append_of_ne_nil _ (List.cons_ne_nil _ _), List.getLast?_cons, List.getLast?_eq_some_getLast hkept]
    intro hpoint
    exact isDigit_ne_point (isDigit_of_mem_dropTrailingZeros (List.getLast_mem hkept)) (Option.some.inj hpoint)
  rw [dropFraction, if_pos (by simp), hdropped, if_neg hlast]

/-- The machine writes what the description of the text says. -/
theorem formatValueInt64_eq (v : Int64) : formatValueInt64 v = formatValue v.toInt := by
  have hwhole : (magnitude v / 100000000).toNat = v.toInt.natAbs / 100000000 := by
    rw [UInt64.toNat_div, magnitude_toNat]
    rfl
  have hfrac : (magnitude v % 100000000).toNat = v.toInt.natAbs % 100000000 := by
    rw [UInt64.toNat_mod, magnitude_toNat]
    rfl
  have hzero : magnitude v % 100000000 = 0 ↔ v.toInt.natAbs % 100000000 = 0 := by
    rw [← hfrac, ← UInt64.toNat_inj]
    rfl
  have hnegative : v < 0 ↔ v.toInt < 0 := Int64.lt_iff_toInt_lt
  have htext : dropFraction (if magnitude v % 100000000 = 0 then Nat.toDigits 10 (magnitude v / 100000000).toNat
      else Nat.toDigits 10 (magnitude v / 100000000).toNat ++ '.' :: paddedDigits (magnitude v % 100000000).toNat) =
      Nat.toDigits 10 (v.toInt.natAbs / 100000000) ++ if v.toInt.natAbs % 100000000 = 0 then []
        else '.' :: dropTrailingZeros (paddedDigits (v.toInt.natAbs % 100000000)) := by
    rw [if_congr hzero rfl rfl, hwhole, hfrac]
    split
    next hnone =>
      rw [dropFraction_digits fun c hc => Nat.isDigit_of_mem_toDigits (by decide) (by decide) hc, List.append_nil]
    next hsome => exact dropFraction_point _ hsome
  simp only [formatValueInt64, formatValue, ← paddedDigits.eq_1, htext, hnegative]
  split
  · rfl
  · rfl

/-- The decimals of an amount. -/
def amountDecimals (v : Int) : Option (List Char) :=
  if v.natAbs % 100000000 = 0 then none else some (dropTrailingZeros (paddedDigits (v.natAbs % 100000000)))

theorem amountDecimals_cases (v : Int) : (v.natAbs % 100000000 = 0 ∧ amountDecimals v = none) ∨
    (v.natAbs % 100000000 ≠ 0 ∧ amountDecimals v = some (dropTrailingZeros (paddedDigits (v.natAbs % 100000000)))) := by
  unfold amountDecimals
  split
  next hzero => exact .inl ⟨hzero, rfl⟩
  next hsome => exact .inr ⟨hsome, rfl⟩

theorem isDigit_of_mem_amount {v : Int} {c : Char}
    (hc : c ∈ Nat.toDigits 10 (v.natAbs / 100000000) ++ (amountDecimals v).getD []) : c.isDigit = true := by
  rcases List.mem_append.mp hc with hwhole | hdecimals
  · exact Nat.isDigit_of_mem_toDigits (by decide) (by decide) hwhole
  · rcases amountDecimals_cases v with ⟨-, hnone⟩ | ⟨-, hsome⟩
    · rw [hnone] at hdecimals
      cases hdecimals
    · rw [hsome] at hdecimals
      exact isDigit_of_mem_dropTrailingZeros hdecimals

/-- The number that `FormatValue` writes. -/
def amountNumeral (v : Int) : Numeral where
  negative := if v < 0 then some true else none
  whole := Nat.toDigits 10 (v.natAbs / 100000000)
  decimals := amountDecimals v
  digits _ hc := isDigit_of_mem_amount hc

theorem text_amountNumeral (v : Int) : (amountNumeral v).text = (formatValue v).toList := by
  have hbody : (amountNumeral v).body = Nat.toDigits 10 (v.natAbs / 100000000) ++
      if v.natAbs % 100000000 = 0 then [] else '.' :: dropTrailingZeros (paddedDigits (v.natAbs % 100000000)) := by
    rcases amountDecimals_cases v with ⟨hzero, hnone⟩ | ⟨hfrac, hsome⟩
    · have hdecimals : (amountNumeral v).decimals = none := hnone
      rw [Numeral.body, hdecimals, if_pos hzero]
      rfl
    · have hdecimals : (amountNumeral v).decimals = some _ := hsome
      rw [Numeral.body, hdecimals, if_neg hfrac]
      rfl
  rw [formatValue, String.toList_ofList, ← paddedDigits.eq_1, ← hbody, Numeral.text]
  by_cases hneg : v < 0
  · simp [amountNumeral, hneg]
  · simp [amountNumeral, hneg]

/-- The zeros that are dropped stand for themselves in the places that are not written. -/
theorem fraction_amountNumeral (v : Int) : (amountNumeral v).fraction.length ≤ 8 ∧
    Nat.ofDigitChars 10 (amountNumeral v).fraction 0 * 10 ^ (8 - (amountNumeral v).fraction.length) =
      v.natAbs % 100000000 := by
  rcases amountDecimals_cases v with ⟨hzero, hnone⟩ | ⟨-, hsome⟩
  · have hfraction : (amountNumeral v).fraction = [] := congrArg (Option.getD · []) hnone
    rw [hfraction, hzero]
    simp
  · obtain ⟨zeros, hzeros⟩ := exists_zeros (paddedDigits (v.natAbs % 100000000))
    have hlength := length_paddedDigits (Nat.mod_lt v.natAbs (by decide : 0 < 100000000))
    have hvalue := ofDigitChars_paddedDigits (v.natAbs % 100000000)
    have hfraction : (amountNumeral v).fraction = dropTrailingZeros (paddedDigits (v.natAbs % 100000000)) :=
      congrArg (Option.getD · []) hsome
    rw [hfraction]
    generalize dropTrailingZeros (paddedDigits (v.natAbs % 100000000)) = kept at hzeros ⊢
    rw [hzeros, List.length_append, List.length_replicate] at hlength
    rw [hzeros, Nat.ofDigitChars_append, Nat.ofDigitChars_replicate_zero] at hvalue
    rw [show 8 - kept.length = zeros by omega, Nat.mul_comm]
    exact ⟨by omega, hvalue⟩

theorem units_amountNumeral (v : Int) : (amountNumeral v).units 8 = v.natAbs := by
  have hwhole : Nat.ofDigitChars 10 (amountNumeral v).whole 0 = v.natAbs / 100000000 := Nat.ofDigitChars_ten_toDigits
  rw [Numeral.units, hwhole, (fraction_amountNumeral v).2]
  omega

theorem signed_amountNumeral (v : Int) : (amountNumeral v).signed v.natAbs = v := by
  have hnegative : (amountNumeral v).negative = some true ↔ v < 0 := by
    by_cases hneg : v < 0
    · simp [amountNumeral, hneg]
    · simp [amountNumeral, hneg]
  rw [Numeral.signed, if_congr hnegative rfl rfl]
  split
  next hneg =>
    have habs : -(v.natAbs : Int) = v := by omega
    exact_mod_cast habs
  next hnonneg =>
    have habs : ((v.natAbs : Int) : ℚ) = v := by rw [Int.natAbs_of_nonneg (not_lt.mp hnonneg)]
    rwa [Int.cast_natCast] at habs

theorem value_amountNumeral (v : Int) : (amountNumeral v).value = v / 10 ^ 8 := by
  have hscaled := (amountNumeral v).value_mul_pow (fraction_amountNumeral v).1
  rw [units_amountNumeral, signed_amountNumeral] at hscaled
  rw [← hscaled, mul_div_cancel_left₀ _ (by norm_num)]

/-- The integer part has a leading zero only as the number zero. -/
theorem toDigits_head {n : Nat} (hzero : (Nat.toDigits 10 n).head? = some '0') : Nat.toDigits 10 n = ['0'] := by
  induction n using Nat.strong_induction_on with
  | _ n ih =>
    rw [Nat.toDigits_eq_if (by decide)] at hzero ⊢
    split
    next hdigit =>
      rw [if_pos hdigit, List.head?_singleton, Option.some.injEq] at hzero
      rw [hzero]
    next hlarge =>
      rw [if_neg hlarge, List.head?_append_of_ne_nil _ Nat.toDigits_ne_nil] at hzero
      have hvalue := congrArg (Nat.ofDigitChars 10 · 0) (ih (n / 10) (by omega) hzero)
      simp only [Nat.ofDigitChars_ten_toDigits] at hvalue
      have hdigit : Nat.ofDigitChars 10 ['0'] 0 = 0 := rfl
      omega

theorem parseValue_formatValueInt64 {v : Int64} (hv : |v.toInt| ≤ MAX_SUPPLY_BASE) :
    parseValue (formatValueInt64 v) = .ok v := by
  have hunits := units_amountNumeral v.toInt
  have hbound : (v.toInt.natAbs : Int) ≤ 2100000000000000 := by
    rw [Int.natCast_natAbs]
    exact hv
  have hwrapped : (amountNumeral v.toInt).units 8 % 2 ^ 64 = v.toInt.natAbs := by omega
  rw [parseValue_eq_ok_iff]
  refine ⟨amountNumeral v.toInt, ?_, ⟨?_, ?_, (fraction_amountNumeral _).1, ?_⟩, ?_⟩
  · rw [formatValueInt64_eq, text_amountNumeral]
  · intro hempty
    exact Nat.toDigits_ne_nil (List.append_eq_nil_iff.mp hempty).1
  · have hwhole : Nat.ofDigitChars 10 (amountNumeral v.toInt).whole 0 = v.toInt.natAbs / 100000000 :=
      Nat.ofDigitChars_ten_toDigits
    rw [hwhole, wholeLimit]
    omega
  · rw [hwrapped]
    exact hbound
  · rw [hwrapped, signed_amountNumeral]

/-- What a reader of an amount may expect of its text. -/
structure WritesExactly (v : Int64) (s : String) (n : Numeral) : Prop where
  text : n.text = s.toList
  value : n.value = v.toInt / 10 ^ 8
  sign : n.negative = if v < 0 then some true else none
  whole : n.whole ≠ [] ∧ (n.whole.head? = some '0' → n.whole = ['0'])
  decimals : ∀ ds, n.decimals = some ds → ds ≠ [] ∧ ds.getLast? ≠ some '0'

/-- Every amount is written exactly, and the amounts within the supply are read back. -/
theorem formatValueInt64_exact : (∀ v : Int64, |v.toInt| ≤ MAX_SUPPLY_BASE → parseValue (formatValueInt64 v) = .ok v) ∧
    ∀ v : Int64, ∃ n, WritesExactly v (formatValueInt64 v) n := by
  refine ⟨fun v hv => parseValue_formatValueInt64 hv, fun v => ⟨amountNumeral v.toInt, ?_, ?_, ?_, ?_, ?_⟩⟩
  · rw [formatValueInt64_eq, text_amountNumeral]
  · exact value_amountNumeral v.toInt
  · have hneg : v < 0 ↔ v.toInt < 0 := Int64.lt_iff_toInt_lt
    exact if_congr hneg.symm rfl rfl
  · exact ⟨Nat.toDigits_ne_nil, toDigits_head⟩
  · intro ds hds
    rcases amountDecimals_cases v.toInt with ⟨-, hnone⟩ | ⟨hfrac, hsome⟩
    · cases hnone.symm.trans hds
    · obtain rfl := Option.some.inj (hsome.symm.trans hds)
      have hkept := dropTrailingZeros_ne_nil hfrac
      refine ⟨hkept, fun hzero => ?_⟩
      rw [List.getLast?_eq_some_getLast hkept, Option.some.injEq] at hzero
      exact List.rdropWhile_last_not _ _ hkept (beq_iff_eq.mpr hzero)

example : formatValueInt64 Int64.minValue = "-92233720368.54775808" := by decide +kernel

theorem formatValueInt64_exact_sample : parseValue (formatValueInt64 (-150000000)) = .ok (-150000000) :=
  formatValueInt64_exact.1 (-150000000) (by decide)

end cdx
