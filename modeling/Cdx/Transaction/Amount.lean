import Cdx.Config.Networks
import Cdx.Consensus.Checked
import Cdx.Lib.Decimal
import Cdx.Transaction.Types

namespace cdx

open decimal

/-- What the loop of `ParseValue` has read so far. -/
structure AmountDigits where
  whole : UInt64 := 0
  frac : UInt64 := 0
  fracDigits : Nat := 0
  inFrac : Bool := false
deriving DecidableEq

namespace AmountDigits

def next (a : AmountDigits) (c : Char) : Except String AmountDigits :=
  if c = '.' then
    if a.inFrac then .error "invalid amount" else .ok { a with inFrac := true }
  else if c < '0' ∨ c > '9' then .error "invalid amount"
  else if !a.inFrac then
    let whole := a.whole * 10 + UInt64.ofNat (c.toNat - '0'.toNat)
    if whole > 21000000 * 100000000 + 1 then .error "amount too large" else .ok { a with whole }
  else if a.fracDigits ≥ 8 then .error "too many decimals"
  else .ok { a with frac := a.frac * 10 + UInt64.ofNat (c.toNat - '0'.toNat), fracDigits := a.fracDigits + 1 }

/-- The fraction with the places that were not written. -/
def scaled : Nat → UInt64 → UInt64
  | 0, frac => frac
  | missing + 1, frac => scaled missing (frac * 10)

def total (a : AmountDigits) : UInt64 := a.whole * 100000000 + scaled (8 - a.fracDigits) a.frac

end AmountDigits

/-- The end of `ParseValue`, after its loops. -/
def signedAmount (neg : Bool) (total : UInt64) : Except String Int64 :=
  if total > 21000000 * 100000000 then .error "amount exceeds max supply"
  else
    let result := total.toInt64
    .ok (if neg then -result else result)

/-- `ParseValue` after the sign. -/
def parseUnsigned (neg : Bool) (chars : List Char) : Except String Int64 :=
  if chars = [] then .error "invalid amount"
  else do
    let a ← chars.foldlM AmountDigits.next {}
    signedAmount neg a.total

def parseValue (s : String) : Except String Int64 :=
  match s.toList with
  | [] => .error "empty amount"
  | '-' :: rest => parseUnsigned true rest
  | '+' :: rest => parseUnsigned false rest
  | chars => parseUnsigned false chars

/-- The largest integer part that the loop lets pass. It is a count of coins, but the bound
    is a count of base units. -/
def wholeLimit : Nat := 21000000 * 100000000 + 1

theorem isDigit_iff (c : Char) : c.isDigit = true ↔ ¬ (c < '0' ∨ c > '9') := by
  rw [not_or, not_lt, gt_iff_lt, not_lt, Char.isDigit, Bool.and_eq_true, decide_eq_true_eq, decide_eq_true_eq]
  rfl

theorem isDigit_ne_point {c : Char} (hc : c.isDigit = true) : c ≠ '.' := by
  rintro rfl
  exact absurd hc (by decide)

theorem digit_le {c : Char} (hc : c.isDigit = true) : c.toNat - '0'.toNat ≤ 9 := by
  rw [isDigit_iff, not_or, not_lt, gt_iff_lt, not_lt] at hc
  have hle : c.toNat ≤ '9'.toNat := hc.2
  change c.toNat ≤ 57 at hle
  change c.toNat - 48 ≤ 9
  omega

theorem ofNat_digit (n d : Nat) : UInt64.ofNat n * 10 + UInt64.ofNat d = UInt64.ofNat (10 * n + d) := by
  rw [UInt64.ofNat_add, UInt64.ofNat_mul, UInt64.mul_comm]
  rfl

theorem le_ofDigitChars (chars : List Char) (n : Nat) : n ≤ Nat.ofDigitChars 10 chars n := by
  rw [Nat.ofDigitChars_eq_ofDigitChars_zero]
  have hpos : 0 < 10 ^ chars.length := by positivity
  nlinarith

namespace AmountDigits

variable {a b : AmountDigits} {c : Char} {w f k : Nat}

theorem next_frac_eq_ok_iff : next ⟨UInt64.ofNat w, UInt64.ofNat f, k, true⟩ c = .ok b ↔
    c.isDigit = true ∧ k < 8 ∧ b = ⟨UInt64.ofNat w, UInt64.ofNat (10 * f + (c.toNat - '0'.toNat)), k + 1, true⟩ := by
  unfold next
  split
  next hpoint =>
    have hdigit : ¬ c.isDigit = true := fun hc => isDigit_ne_point hc hpoint
    simp [hdigit]
  next hpoint =>
    rw [isDigit_iff, ← ofNat_digit]
    split
    next hother => simp [hother]
    next hdigit =>
      simp only [Bool.not_true, Bool.false_eq_true, if_false, hdigit, not_false_eq_true, true_and]
      split
      next hmany =>
        simp only [reduceCtorEq, false_iff, not_and]
        omega
      next hroom =>
        rw [Except.ok.injEq, eq_comm, and_iff_right (by omega)]

theorem next_whole_eq_ok_iff (hw : w ≤ wholeLimit) : next ⟨UInt64.ofNat w, 0, 0, false⟩ c = .ok b ↔
    (c = '.' ∧ b = ⟨UInt64.ofNat w, 0, 0, true⟩) ∨ (c.isDigit = true ∧ 10 * w + (c.toNat - '0'.toNat) ≤ wholeLimit ∧
      b = ⟨UInt64.ofNat (10 * w + (c.toNat - '0'.toNat)), 0, 0, false⟩) := by
  unfold next
  split
  next hpoint =>
    simp [hpoint, eq_comm]
  next hpoint =>
    split
    next hother => simp [isDigit_iff, hother, hpoint]
    next hdigit =>
      have hwhole : UInt64.ofNat w * 10 + UInt64.ofNat (c.toNat - '0'.toNat) > 21000000 * 100000000 + 1 ↔
          ¬ 10 * w + (c.toNat - '0'.toNat) ≤ wholeLimit := by
        have hlt : 10 * w + (c.toNat - '0'.toNat) < 2 ^ 64 := by
          have hdigit := digit_le (isDigit_iff c |>.mpr hdigit)
          simp only [wholeLimit] at hw
          omega
        rw [ofNat_digit, gt_iff_lt, UInt64.lt_iff_toNat_lt, UInt64.toNat_ofNat_of_lt' hlt, not_le]
        rfl
      simp only [Bool.not_false, if_true, isDigit_iff, hdigit, not_false_eq_true, true_and, hpoint, false_and, false_or]
      rw [if_congr hwhole rfl rfl, ofNat_digit]
      split
      next hlarge => exact iff_of_false (fun hok => nomatch hok) fun hb => hlarge hb.1
      next hsmall => rw [Except.ok.injEq, eq_comm, and_iff_right (not_not.mp hsmall)]

theorem frac_eq_ok_iff {chars : List Char} (hk : k ≤ 8) :
    chars.foldlM next ⟨UInt64.ofNat w, UInt64.ofNat f, k, true⟩ = .ok b ↔
      (∀ c ∈ chars, c.isDigit = true) ∧ k + chars.length ≤ 8 ∧
      b = ⟨UInt64.ofNat w, UInt64.ofNat (Nat.ofDigitChars 10 chars f), k + chars.length, true⟩ := by
  induction chars generalizing f k with
  | nil =>
    constructor
    · rintro ⟨⟩
      exact ⟨List.forall_mem_nil _, hk, rfl⟩
    · rintro ⟨-, -, rfl⟩
      rfl
  | cons c chars ih =>
    have hplaces : k + (chars.length + 1) = k + 1 + chars.length := by omega
    rw [List.foldlM_cons, bind_eq_ok_iff, Nat.ofDigitChars_cons, List.forall_mem_cons, List.length_cons, hplaces]
    constructor
    · rintro ⟨a, hnext, hrest⟩
      obtain ⟨hc, hlt, rfl⟩ := next_frac_eq_ok_iff.mp hnext
      obtain ⟨hchars, hlength, rfl⟩ := (ih hlt).mp hrest
      exact ⟨⟨hc, hchars⟩, hlength, rfl⟩
    · rintro ⟨⟨hc, hchars⟩, hlength, rfl⟩
      exact ⟨_, next_frac_eq_ok_iff.mpr ⟨hc, by omega, rfl⟩, (ih (by omega)).mpr ⟨hchars, hlength, rfl⟩⟩

/-- The loop accepts the text of a number after its sign, and nothing else. -/
theorem whole_eq_ok_iff {chars : List Char} (negative : Option Bool) (hw : w ≤ wholeLimit) :
    chars.foldlM next ⟨UInt64.ofNat w, 0, 0, false⟩ = .ok b ↔
      ∃ n : Numeral, n.negative = negative ∧ n.body = chars ∧ Nat.ofDigitChars 10 n.whole w ≤ wholeLimit ∧
        n.fraction.length ≤ 8 ∧ b = ⟨UInt64.ofNat (Nat.ofDigitChars 10 n.whole w),
          UInt64.ofNat (Nat.ofDigitChars 10 n.fraction 0), n.fraction.length, n.decimals.isSome⟩ := by
  induction chars generalizing w with
  | nil =>
    constructor
    · rintro ⟨⟩
      exact ⟨⟨negative, [], none, by simp⟩, rfl, rfl, hw, Nat.zero_le _, rfl⟩
    · rintro ⟨⟨_, whole, decimals, digits⟩, -, hbody, -, -, rfl⟩
      rcases decimals with _ | ds
      · obtain rfl : whole = [] := by simpa [Numeral.body] using hbody
        rfl
      · simp [Numeral.body] at hbody
  | cons c chars ih =>
    rw [List.foldlM_cons, bind_eq_ok_iff]
    constructor
    · rintro ⟨a, hnext, hrest⟩
      rcases (next_whole_eq_ok_iff hw).mp hnext with ⟨rfl, rfl⟩ | ⟨hc, hle, rfl⟩
      · obtain ⟨hchars, hlength, rfl⟩ := (frac_eq_ok_iff (f := 0) (Nat.zero_le 8)).mp hrest
        rw [Nat.zero_add] at hlength ⊢
        exact ⟨⟨negative, [], some chars, hchars⟩, rfl, rfl, hw, hlength, rfl⟩
      · obtain ⟨n, hnegative, hbody, hwhole, hlength, rfl⟩ := (ih hle).mp hrest
        refine ⟨⟨negative, c :: n.whole, n.decimals, ?_⟩, rfl, ?_, ?_, hlength, ?_⟩
        · exact List.forall_mem_cons.mpr ⟨hc, n.digits⟩
        · rw [← hbody]
          rfl
        · rwa [Nat.ofDigitChars_cons]
        · rw [Nat.ofDigitChars_cons]
          rfl
    · rintro ⟨⟨sign, whole, decimals, digits⟩, rfl, hbody, hwhole, hlength, rfl⟩
      rcases whole with _ | ⟨d, whole⟩
      · rcases decimals with _ | ds
        · cases hbody
        · cases hbody
          refine ⟨_, (next_whole_eq_ok_iff hw).mpr (.inl ⟨rfl, rfl⟩), (frac_eq_ok_iff (f := 0) (Nat.zero_le 8)).mpr ?_⟩
          exact ⟨digits, by rwa [Nat.zero_add], by rw [Nat.zero_add]; rfl⟩
      · obtain ⟨rfl, hrest⟩ := List.cons.inj hbody
        obtain ⟨hd, hdigits⟩ := List.forall_mem_cons.mp digits
        simp only [Nat.ofDigitChars_cons] at hwhole ⊢
        have hle := (le_ofDigitChars _ _).trans hwhole
        exact ⟨_, (next_whole_eq_ok_iff hw).mpr (.inr ⟨hd, hle, rfl⟩),
          (ih hle).mpr ⟨⟨sign, whole, decimals, hdigits⟩, rfl, hrest, hwhole, hlength, rfl⟩⟩

theorem scaled_ofNat (missing : Nat) (f : Nat) : scaled missing (UInt64.ofNat f) = UInt64.ofNat (f * 10 ^ missing) := by
  induction missing generalizing f with
  | zero => simp [scaled]
  | succ missing ih =>
    have hten : UInt64.ofNat f * 10 = UInt64.ofNat (f * 10) := by
      rw [UInt64.ofNat_mul]
      rfl
    rw [scaled, hten, ih, Nat.pow_succ', Nat.mul_assoc]

theorem total_toNat (n : Numeral) (inFrac : Bool) :
    (total ⟨UInt64.ofNat (Nat.ofDigitChars 10 n.whole 0), UInt64.ofNat (Nat.ofDigitChars 10 n.fraction 0), n.fraction.length,
      inFrac⟩).toNat = n.units 8 % 2 ^ 64 := by
  have htotal : total ⟨UInt64.ofNat (Nat.ofDigitChars 10 n.whole 0), UInt64.ofNat (Nat.ofDigitChars 10 n.fraction 0),
      n.fraction.length, inFrac⟩ = UInt64.ofNat (n.units 8) := by
    have hcoin : UInt64.ofNat (10 ^ 8) = 100000000 := by decide
    rw [total, scaled_ofNat, Numeral.units, UInt64.ofNat_add, UInt64.ofNat_mul _ (10 ^ 8), hcoin]
  rw [htotal, UInt64.toNat_ofNat']

end AmountDigits

/-- The numbers that `ParseValue` lets pass. -/
structure AmountPasses (n : Numeral) : Prop where
  body_ne_nil : n.body ≠ []
  whole_le : Nat.ofDigitChars 10 n.whole 0 ≤ wholeLimit
  places_le : n.fraction.length ≤ 8
  wrapped_le : ((n.units 8 % 2 ^ 64 : Nat) : Int) ≤ MAX_SUPPLY_BASE

theorem signedAmount_eq_ok_iff {neg : Bool} {total : UInt64} {v : Int64} : signedAmount neg total = .ok v ↔
    (total.toNat : Int) ≤ MAX_SUPPLY_BASE ∧ v.toInt = if neg then -(total.toNat : Int) else total.toNat := by
  have hsupply : total > 21000000 * 100000000 ↔ ¬ (total.toNat : Int) ≤ MAX_SUPPLY_BASE := by
    rw [gt_iff_lt, UInt64.lt_iff_toNat_lt, show MAX_SUPPLY_BASE = 2100000000000000 from rfl,
      show (21000000 * 100000000 : UInt64).toNat = 2100000000000000 from rfl]
    omega
  unfold signedAmount
  rw [if_congr hsupply rfl rfl]
  split
  next hlarge => exact iff_of_false (fun hok => nomatch hok) fun hv => hlarge hv.1
  next hsmall =>
    have hle := not_not.mp hsmall
    have hbound : total.toNat ≤ 2100000000000000 := by
      rw [show MAX_SUPPLY_BASE = 2100000000000000 from rfl] at hle
      omega
    have hvalue : total.toInt64.toInt = total.toNat := by
      apply BitVec.toInt_eq_toNat_of_lt
      change 2 * total.toNat < 2 ^ 64
      omega
    have hsigned : (if neg then -total.toInt64 else total.toInt64).toInt =
        if neg then -(total.toNat : Int) else total.toNat := by
      cases neg with
      | false => exact hvalue
      | true =>
        rw [if_pos rfl, if_pos rfl, Int64.toInt_neg, hvalue]
        apply Int.bmod_eq_of_le
        all_goals omega
    rw [Except.ok.injEq, ← Int64.toInt_inj, hsigned, and_iff_right hle, eq_comm]

theorem parseUnsigned_eq_ok_iff (negative : Option Bool) {chars : List Char} {v : Int64} :
    parseUnsigned (negative == some true) chars = .ok v ↔
      ∃ n : Numeral, n.negative = negative ∧ n.body = chars ∧ AmountPasses n ∧
        (v.toInt : ℚ) = n.signed (n.units 8 % 2 ^ 64 : Nat) := by
  have hstart : (({} : AmountDigits)) = ⟨UInt64.ofNat 0, 0, 0, false⟩ := rfl
  have hsigned (n : Numeral) (m : Nat) : (v.toInt : ℚ) = n.signed m ↔
      v.toInt = if (n.negative == some true) = true then -(m : Int) else m := by
    unfold Numeral.signed
    simp only [beq_iff_eq]
    split
    · norm_cast
    · norm_cast
  unfold parseUnsigned
  split
  next hempty =>
    refine iff_of_false (fun hok => nomatch hok) ?_
    rintro ⟨n, -, hbody, hpasses, -⟩
    exact hpasses.body_ne_nil (hbody.trans hempty)
  next hchars =>
    rw [hstart]
    simp only [bind_eq_ok_iff, AmountDigits.whole_eq_ok_iff negative (Nat.zero_le wholeLimit), signedAmount_eq_ok_iff, hsigned]
    constructor
    · rintro ⟨a, ⟨n, rfl, hbody, hwhole, hlength, rfl⟩, hle, hv⟩
      rw [AmountDigits.total_toNat] at hle hv
      exact ⟨n, rfl, hbody, ⟨hbody.trans_ne hchars, hwhole, hlength, hle⟩, hv⟩
    · rintro ⟨n, rfl, hbody, ⟨-, hwhole, hlength, hle⟩, hv⟩
      refine ⟨_, ⟨n, rfl, hbody, hwhole, hlength, rfl⟩, ?_⟩
      rw [AmountDigits.total_toNat]
      exact ⟨hle, hv⟩

theorem parseValue_eq_ok_iff {s : String} {v : Int64} : parseValue s = .ok v ↔
    ∃ n : Numeral, n.text = s.toList ∧ AmountPasses n ∧ (v.toInt : ℚ) = n.signed (n.units 8 % 2 ^ 64 : Nat) := by
  unfold parseValue
  split
  next hempty =>
    refine iff_of_false (fun hok => nomatch hok) ?_
    rintro ⟨n, htext, hpasses, -⟩
    rw [hempty, Numeral.text_eq_unsigned_iff (fun _ => (List.cons_ne_nil _ _).symm) (fun _ => (List.cons_ne_nil _ _).symm)] at htext
    exact hpasses.body_ne_nil htext.2
  next rest hminus =>
    simp only [hminus, Numeral.text_eq_minus_iff, and_assoc]
    exact parseUnsigned_eq_ok_iff (some true)
  next rest hplus =>
    simp only [hplus, Numeral.text_eq_plus_iff, and_assoc]
    exact parseUnsigned_eq_ok_iff (some false)
  next hminus hplus =>
    simp only [Numeral.text_eq_unsigned_iff hminus hplus, and_assoc]
    exact parseUnsigned_eq_ok_iff none

/-- What a caller may expect of an amount that was read from a text. -/
def ReadsExactly (s : String) : Prop :=
  ∀ v, parseValue s = .ok v → ∃ n : Numeral, n.text = s.toList ∧ n.HasDigit ∧ n.fraction.length ≤ 8 ∧
    (v.toInt : ℚ) = 10 ^ 8 * n.value ∧ |v.toInt| ≤ MAX_SUPPLY_BASE ∧ |n.value| ≤ 21000000

/-- A point without digits. -/
def lonePoint (negative : Option Bool) : Numeral := ⟨negative, [], some [], fun _ hc => nomatch hc⟩

theorem mem_lonePoints_iff {s : String} : s ∈ [".", "+.", "-."] ↔ ∃ negative, (lonePoint negative).text = s.toList := by
  have hlist (t : String) : s = t ↔ t.toList = s.toList := by rw [← String.toList_inj, eq_comm]
  simp only [List.mem_cons, List.not_mem_nil, or_false, hlist]
  constructor
  · rintro (hs | hs | hs)
    · exact ⟨none, hs⟩
    · exact ⟨some false, hs⟩
    · exact ⟨some true, hs⟩
  · rintro ⟨_ | _ | _, hs⟩
    · exact .inl hs
    · exact .inr (.inl hs)
    · exact .inr (.inr hs)

theorem AmountPasses.hasDigit_or {n : Numeral} (hpasses : AmountPasses n) : n.HasDigit ∨ n = lonePoint n.negative := by
  by_cases hdigit : n.HasDigit
  · exact .inl hdigit
  · obtain ⟨hwhole, hfraction⟩ := List.append_eq_nil_iff.mp (not_not.mp hdigit)
    refine .inr (Numeral.ext rfl hwhole ?_)
    cases hdecimals : n.decimals with
    | none =>
      refine absurd ?_ hpasses.body_ne_nil
      rw [Numeral.body, hwhole, hdecimals]
      rfl
    | some ds =>
      rw [Numeral.fraction, hdecimals, Option.getD_some] at hfraction
      rw [hfraction]
      rfl

/-- Every amount within the supply is the result of some parse. -/
theorem AmountPasses.exists_amount {n : Numeral} (hpasses : AmountPasses n) :
    ∃ v : Int64, (v.toInt : ℚ) = n.signed (n.units 8 % 2 ^ 64 : Nat) := by
  have hle := hpasses.wrapped_le
  generalize n.units 8 % 2 ^ 64 = m at hle ⊢
  rw [show MAX_SUPPLY_BASE = 2100000000000000 from rfl] at hle
  unfold Numeral.signed
  split
  · refine ⟨Int64.ofInt (-m), ?_⟩
    rw [Int64.toInt_ofInt_of_le (by omega) (by omega), Int.cast_neg, Int.cast_natCast]
  · refine ⟨Int64.ofInt m, ?_⟩
    rw [Int64.toInt_ofInt_of_le (by omega) (by omega), Int.cast_natCast]

theorem abs_value_le_iff {n : Numeral} (hplaces : n.fraction.length ≤ 8) :
    |n.value| ≤ 21000000 ↔ (n.units 8 : Int) ≤ MAX_SUPPLY_BASE := by
  have hunits : 10 ^ 8 * |n.value| = n.units 8 := by
    rw [← n.abs_signed, ← n.value_mul_pow hplaces, abs_mul, abs_of_pos (by positivity : (0 : ℚ) < 10 ^ 8)]
  have hcast : (n.units 8 : Int) ≤ MAX_SUPPLY_BASE ↔ (n.units 8 : ℚ) ≤ 2100000000000000 := by
    rw [show MAX_SUPPLY_BASE = 2100000000000000 from rfl]
    norm_cast
  rw [hcast, ← hunits]
  constructor <;> intro hle <;> linarith

/-- The parser fails its caller on a point without digits, and on the numbers above the supply whose
    count of base units is back below it modulo `2 ^ 64`. -/
theorem readsExactly_iff (s : String) : ReadsExactly s ↔ s ∉ [".", "+.", "-."] ∧
    ∀ n : Numeral, n.text = s.toList → Nat.ofDigitChars 10 n.whole 0 ≤ wholeLimit → n.fraction.length ≤ 8 →
      MAX_SUPPLY_BASE < n.units 8 → MAX_SUPPLY_BASE < (n.units 8 % 2 ^ 64 : Nat) := by
  constructor
  · intro hexact
    constructor
    · rw [mem_lonePoints_iff]
      rintro ⟨negative, htext⟩
      have hunits : (lonePoint negative).units 8 = 0 := by simp [lonePoint, Numeral.units, Numeral.fraction]
      have hpasses : AmountPasses (lonePoint negative) :=
        ⟨List.cons_ne_nil _ _, Nat.zero_le _, Nat.zero_le _, by rw [hunits]; decide⟩
      obtain ⟨v, hv⟩ := hpasses.exists_amount
      obtain ⟨n, hn, hdigit, -⟩ := hexact v (parseValue_eq_ok_iff.mpr ⟨_, htext, hpasses, hv⟩)
      rw [Numeral.text_injective (hn.trans htext.symm)] at hdigit
      exact hdigit rfl
    · intro n htext hwhole hlength hunits
      by_contra hwrapped
      have hbody : n.body ≠ [] := by
        intro hempty
        have hnone : n.body = Numeral.body ⟨none, [], none, List.forall_mem_nil _⟩ := hempty
        obtain ⟨hnil, hdecimals⟩ := Numeral.body_injective hnone
        rw [Numeral.units, Numeral.fraction, hnil, hdecimals] at hunits
        exact absurd hunits (by decide)
      have hpasses : AmountPasses n := ⟨hbody, hwhole, hlength, not_lt.mp hwrapped⟩
      obtain ⟨v, hv⟩ := hpasses.exists_amount
      obtain ⟨m, hm, -, -, -, -, hle⟩ := hexact v (parseValue_eq_ok_iff.mpr ⟨n, htext, hpasses, hv⟩)
      rw [Numeral.text_injective (hm.trans htext.symm), abs_value_le_iff hlength] at hle
      exact not_lt.mpr hle hunits
  · rintro ⟨hpoint, hunwrapped⟩ v hv
    obtain ⟨n, htext, hpasses, hvalue⟩ := parseValue_eq_ok_iff.mp hv
    have hunits : (n.units 8 : Int) ≤ MAX_SUPPLY_BASE := by
      by_contra hlarge
      exact not_lt.mpr hpasses.wrapped_le (hunwrapped n htext hpasses.whole_le hpasses.places_le (not_le.mp hlarge))
    have hlt : n.units 8 < 2 ^ 64 := by
      rw [show MAX_SUPPLY_BASE = 2100000000000000 from rfl] at hunits
      omega
    have hdigit : n.HasDigit := by
      rcases hpasses.hasDigit_or with hdigit | hlone
      · exact hdigit
      · exact absurd (mem_lonePoints_iff.mpr ⟨n.negative, hlone ▸ htext⟩) hpoint
    rw [Nat.mod_eq_of_lt hlt] at hvalue
    refine ⟨n, htext, hdigit, hpasses.places_le, ?_, ?_, (abs_value_le_iff hpasses.places_le).mpr hunits⟩
    · rw [hvalue, n.value_mul_pow hpasses.places_le]
    · have habs : |(v.toInt : ℚ)| = n.units 8 := by rw [hvalue, n.abs_signed]
      have hcast : |v.toInt| = n.units 8 := by exact_mod_cast habs
      rwa [hcast]

/-- The first whole number of coins above `2 ^ 64` base units. -/
theorem not_readsExactly_wrapped : parseValue "184467440738" = .ok 90448384 ∧ ¬ ReadsExactly "184467440738" := by
  have hparsed : parseValue "184467440738" = .ok 90448384 := by decide +kernel
  refine ⟨hparsed, fun hexact => ?_⟩
  obtain ⟨n, htext, -, -, -, -, hle⟩ := hexact _ hparsed
  have hdigits : ∀ c ∈ ['1', '8', '4', '4', '6', '7', '4', '4', '0', '7', '3', '8'] ++ [], c.isDigit = true := by simp
  have hn : n = ⟨none, ['1', '8', '4', '4', '6', '7', '4', '4', '0', '7', '3', '8'], none, hdigits⟩ :=
    Numeral.text_injective htext
  have hunits : n.units 8 = 18446744073800000000 := by
    simp [hn, Numeral.units, Numeral.fraction, Nat.ofDigitChars_cons]
  rw [abs_value_le_iff (by rw [hn]; exact Nat.zero_le 8), hunits] at hle
  exact absurd hle (by decide)

end cdx
