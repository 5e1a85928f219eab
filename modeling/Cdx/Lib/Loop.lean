import Mathlib

namespace loop

variable {σ ρ : Type} (round : σ → ρ ⊕ σ)

/-- A loop with fuel: every round ends it with a result or goes on from a new state. -/
def run : Nat → σ → Option ρ
  | 0, _ => none
  | fuel + 1, s =>
    match round s with
    | .inl r => some r
    | .inr next => run fuel next

variable {round}

theorem run_of_ends {s : σ} {r : ρ} (hround : round s = .inl r) (fuel : Nat) : run round (fuel + 1) s = some r := by
  rw [run, hround]

theorem run_of_goesOn {s next : σ} (hround : round s = .inr next) (fuel : Nat) :
    run round (fuel + 1) s = run round fuel next := by
  rw [run, hround]

/-- More fuel does not change a result. -/
theorem run_unique {fuel fuel' : Nat} {s : σ} {r r' : ρ} (hr : run round fuel s = some r) (hr' : run round fuel' s = some r') :
    r = r' := by
  induction fuel generalizing fuel' s with
  | zero => cases hr
  | succ fuel ih =>
    cases fuel' with
    | zero => cases hr'
    | succ fuel' =>
      cases hround : round s with
      | inl result =>
        rw [run_of_ends hround] at hr hr'
        exact Option.some.inj (hr.symm.trans hr')
      | inr next =>
        rw [run_of_goesOn hround] at hr hr'
        exact ih hr hr'

end loop
