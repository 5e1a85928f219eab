import Mathlib

namespace cdx

/-- The 64-bit signed sums formed while a block is validated. -/
inductive Sum64 where
  | totalOut
  | inSum
  | outSum
  | fee
  | fees
  | cbValue
  | subsidyPlusFees
deriving DecidableEq

/-- How a validation ends when it does not accept: with the error it reports,
    or in a signed overflow, which has no defined behaviour. -/
inductive Reject where
  | error (message : String)
  | overflow (sum : Sum64)
deriving DecidableEq

def INT64_MIN : Int := -2 ^ 63

def INT64_MAX : Int := 2 ^ 63 - 1

/-- Signed 64-bit addition. -/
def addI64 (sum : Sum64) (a b : Int) : Except Reject Int :=
  if INT64_MIN ≤ a + b ∧ a + b ≤ INT64_MAX then .ok (a + b) else .error (.overflow sum)

/-- The computation does not end in a signed overflow. -/
def NoOverflow {α : Type} (x : Except Reject α) : Prop := ∀ sum, x ≠ .error (.overflow sum)

theorem bind_eq_ok_iff {ε α β : Type} {x : Except ε α} {f : α → Except ε β} {b : β} :
    (x >>= f) = .ok b ↔ ∃ a, x = .ok a ∧ f a = .ok b := by
  cases x with
  | error e =>
    constructor
    · intro h
      cases h
    · rintro ⟨a, h, _⟩
      cases h
  | ok a =>
    constructor
    · intro h
      exact ⟨a, rfl, h⟩
    · rintro ⟨a', h, hf⟩
      cases h
      exact hf

theorem bind_ok {ε α β : Type} (a : α) (f : α → Except ε β) : (Except.ok a >>= f) = f a := rfl

theorem addI64_eq_ok_iff {sum : Sum64} {a b c : Int} :
    addI64 sum a b = .ok c ↔ (INT64_MIN ≤ a + b ∧ a + b ≤ INT64_MAX) ∧ c = a + b := by
  unfold addI64
  split
  next hrange =>
    constructor
    · intro h
      cases h
      exact ⟨hrange, rfl⟩
    · rintro ⟨_, rfl⟩
      rfl
  next hrange =>
    constructor
    · intro h
      cases h
    · rintro ⟨h, _⟩
      exact absurd h hrange

theorem addI64_of_bounds {sum : Sum64} {a b : Int} (hlow : INT64_MIN ≤ a + b) (hhigh : a + b ≤ INT64_MAX) :
    addI64 sum a b = .ok (a + b) := addI64_eq_ok_iff.mpr ⟨⟨hlow, hhigh⟩, rfl⟩

theorem noOverflow_ok {α : Type} (a : α) : NoOverflow (.ok a : Except Reject α) := by
  intro sum h
  cases h

theorem noOverflow_error {α : Type} (message : String) :
    NoOverflow (.error (.error message) : Except Reject α) := by
  intro sum h
  cases h

/-- A sequence overflows only where one of its steps does. -/
theorem NoOverflow.bind {α β : Type} {x : Except Reject α} {f : α → Except Reject β}
    (hx : NoOverflow x) (hf : ∀ a, x = .ok a → NoOverflow (f a)) : NoOverflow (x >>= f) := by
  intro sum h
  cases x with
  | error e =>
    apply hx sum
    cases h
    rfl
  | ok a => exact hf a rfl sum h

end cdx
