import Cdx.Lib.Transition

namespace transition

variable {σ τ α β : Type} {step : σ → α → Option σ} {high : τ → β → Option τ}

theorem run_append (s : σ) (xs ys : List α) : run step s (xs ++ ys) = (run step s xs).bind fun mid => run step mid ys := by
  induction xs generalizing s with
  | nil => rfl
  | cons a rest ih =>
    rw [List.cons_append, run, run]
    cases step s a with
    | none => rfl
    | some next => exact ih next

variable (step) in
/-- What the steps of a run put out, one after another. -/
def emitted (emits : σ → α → List β) : σ → List α → List β
  | _, [] => []
  | s, a :: rest =>
    emits s a ++ match step s a with
      | none => []
      | some next => emitted emits next rest

/-- A system follows another one if each of its steps is matched by some of what the step puts out. -/
theorem run_simulated {R : τ → σ → Prop} {emits : σ → α → List β}
    (hstep : ∀ t s a s', R t s → step s a = some s' →
      ∃ t' outs, outs.Sublist (emits s a) ∧ run high t outs = some t' ∧ R t' s')
    {t : τ} {s final : σ} {events : List α} (hrel : R t s) (hrun : run step s events = some final) :
    ∃ t' outs, outs.Sublist (emitted step emits s events) ∧ run high t outs = some t' ∧ R t' final := by
  induction events generalizing t s with
  | nil =>
    cases hrun
    exact ⟨t, [], List.Sublist.refl _, rfl, hrel⟩
  | cons a rest ih =>
    obtain ⟨next, hnext, hrest⟩ := run_cons_eq_some hrun
    obtain ⟨mid, now, hnow, hmid, hmidRel⟩ := hstep t s a next hrel hnext
    obtain ⟨t', later, hlater, hfinal, hfinalRel⟩ := ih hmidRel hrest
    refine ⟨t', now ++ later, ?_, ?_, hfinalRel⟩
    · rw [emitted, hnext]
      exact hnow.append hlater
    · rw [run_append, hmid]
      exact hfinal

/-- If every step adds to a quantity what it puts out, a run adds all that it puts out. -/
theorem run_sum {M : Type} [AddMonoid M] {I : σ → Prop} {G : σ → α → Prop} {emits : σ → α → List β} {μ : σ → M}
    {w : β → M} (hstep : ∀ s a s', I s → G s a → step s a = some s' →
      I s' ∧ μ s' = μ s + ((emits s a).map w).sum) {start final : σ} {events : List α} (hstart : I start)
    (hguard : ∀ s a, Takes step start events s a → G s a) (hrun : run step start events = some final) :
    μ final = μ start + ((emitted step emits start events).map w).sum := by
  induction events generalizing start with
  | nil =>
    cases hrun
    simp [emitted]
  | cons a rest ih =>
    obtain ⟨next, hnext, hrest⟩ := run_cons_eq_some hrun
    obtain ⟨hI, hadds⟩ := hstep start a next hstart (hguard start a (Or.inl ⟨rfl, rfl⟩)) hnext
    have hlater := ih hI (fun s b htakes => hguard s b (Or.inr ⟨next, hnext, htakes⟩)) hrest
    rw [hlater, hadds, emitted, hnext, List.map_append, List.sum_append, add_assoc]

/-- A system that comes to an end has a run to a state without a next step. -/
theorem exists_stuck {s : σ} (hacc : Acc (fun s' s => ∃ a, step s a = some s') s) :
    ∃ events final, run step s events = some final ∧ ∀ a, step final a = none := by
  induction hacc with
  | intro s _ ih =>
    by_cases hstuck : ∀ a, step s a = none
    · exact ⟨[], s, rfl, hstuck⟩
    · obtain ⟨a, hmoves⟩ := not_forall.mp hstuck
      obtain ⟨next, hnext⟩ := Option.ne_none_iff_exists'.mp hmoves
      obtain ⟨events, final, hrun, hfinal⟩ := ih next ⟨a, hnext⟩
      refine ⟨a :: events, final, ?_, hfinal⟩
      rw [run, hnext]
      exact hrun

end transition
