import Mathlib.Data.Rat.Cast.Order
import Mathlib.Tactic.FieldSimp
import Mathlib.Tactic.Ring

namespace decimal

/-- A decimal number as it is written: a sign that may be left out, digits, and a point
    with digits that may be left out. -/
@[ext]
structure Numeral where
  negative : Option Bool
  whole : List Char
  decimals : Option (List Char)
  digits : ∀ c ∈ whole ++ decimals.getD [], c.isDigit = true

namespace Numeral

/-- The text after the sign. -/
def body (n : Numeral) : List Char := n.whole ++ n.decimals.elim [] ('.' :: ·)

def text (n : Numeral) : List Char :=
  match n.negative with
  | none => n.body
  | some true => '-' :: n.body
  | some false => '+' :: n.body

def fraction (n : Numeral) : List Char := n.decimals.getD []

def signed (n : Numeral) (magnitude : ℚ) : ℚ := if n.negative = some true then -magnitude else magnitude

/-- The number that is written. -/
def value (n : Numeral) : ℚ :=
  n.signed (Nat.ofDigitChars 10 n.whole 0 + Nat.ofDigitChars 10 n.fraction 0 / 10 ^ n.fraction.length)

/-- Its magnitude, in units of the decimal place `places`. -/
def units (n : Numeral) (places : Nat) : Nat :=
  Nat.ofDigitChars 10 n.whole 0 * 10 ^ places + Nat.ofDigitChars 10 n.fraction 0 * 10 ^ (places - n.fraction.length)

theorem value_mul_pow (n : Numeral) {places : Nat} (hplaces : n.fraction.length ≤ places) :
    10 ^ places * n.value = n.signed (n.units places) := by
  obtain ⟨more, rfl⟩ := Nat.exists_eq_add_of_le hplaces
  have hmagnitude : (10 : ℚ) ^ (n.fraction.length + more) *
      (Nat.ofDigitChars 10 n.whole 0 + Nat.ofDigitChars 10 n.fraction 0 / 10 ^ n.fraction.length) =
      n.units (n.fraction.length + more) := by
    rw [units, Nat.add_sub_cancel_left]
    push_cast
    field_simp
    ring
  unfold value signed
  split
  · rw [mul_neg, hmagnitude]
  · exact hmagnitude

theorem abs_signed (n : Numeral) (magnitude : Nat) : |n.signed magnitude| = magnitude := by
  unfold signed
  split
  · rw [abs_neg, Nat.abs_cast]
  · exact Nat.abs_cast magnitude

/-- Whether any digit is written at all. -/
def HasDigit (n : Numeral) : Prop := n.whole ++ n.fraction ≠ []

theorem mem_body {n : Numeral} {c : Char} (hc : c ∈ n.body) : c.isDigit = true ∨ c = '.' := by
  rcases List.mem_append.mp hc with hwhole | hrest
  · exact .inl (n.digits c (List.mem_append_left _ hwhole))
  · cases hdecimals : n.decimals with
    | none => simp [hdecimals] at hrest
    | some ds =>
      rw [hdecimals, Option.elim_some, List.mem_cons] at hrest
      refine hrest.symm.imp_left fun hds => n.digits c (List.mem_append_right _ ?_)
      rwa [hdecimals]

theorem sign_notMem_body (n : Numeral) : '-' ∉ n.body ∧ '+' ∉ n.body := by
  constructor
  all_goals
    intro hc
    exact absurd (mem_body hc) (by decide)

theorem text_eq_minus_iff {n : Numeral} {rest : List Char} :
    n.text = '-' :: rest ↔ n.negative = some true ∧ n.body = rest := by
  have hsign := n.sign_notMem_body
  unfold text
  split <;> grind

theorem text_eq_plus_iff {n : Numeral} {rest : List Char} :
    n.text = '+' :: rest ↔ n.negative = some false ∧ n.body = rest := by
  have hsign := n.sign_notMem_body
  unfold text
  split <;> grind

theorem text_eq_unsigned_iff {n : Numeral} {chars : List Char} (hminus : ∀ rest, chars ≠ '-' :: rest)
    (hplus : ∀ rest, chars ≠ '+' :: rest) : n.text = chars ↔ n.negative = none ∧ n.body = chars := by
  unfold text
  split <;> grind

/-- The point ends the digits before it, so the text after the sign fixes both parts. -/
theorem body_injective {n m : Numeral} (hbody : n.body = m.body) : n.whole = m.whole ∧ n.decimals = m.decimals := by
  have hsplit (n : Numeral) : n.body.takeWhile Char.isDigit = n.whole := by
    rw [body, List.takeWhile_append_of_pos fun c hc => n.digits c (List.mem_append_left _ hc)]
    cases n.decimals with
    | none => simp
    | some ds => simp
  have hwhole : n.whole = m.whole := by rw [← hsplit n, ← hsplit m, hbody]
  rw [body, body, hwhole] at hbody
  have hrest := List.append_cancel_left hbody
  refine ⟨hwhole, ?_⟩
  cases hn : n.decimals with
  | none =>
    cases hm : m.decimals with
    | none => rfl
    | some ds => simp [hn, hm] at hrest
  | some ds =>
    cases hm : m.decimals with
    | none => simp [hn, hm] at hrest
    | some ds' =>
      rw [hn, hm] at hrest
      rw [(List.cons.inj hrest).2]

/-- A text writes at most one number. -/
theorem text_injective : Function.Injective text := by
  intro n m htext
  have hn := n.sign_notMem_body
  have hm := m.sign_notMem_body
  have hsame : n.negative = m.negative ∧ n.body = m.body := by
    unfold text at htext
    split at htext <;> split at htext <;> grind
  obtain ⟨hwhole, hdecimals⟩ := body_injective hsame.2
  exact Numeral.ext hsame.1 hwhole hdecimals

end Numeral

end decimal
