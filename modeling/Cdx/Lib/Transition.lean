import Mathlib

namespace transition

variable {σ α : Type} (step : σ → α → Option σ)

/-- The state after a list of events, unless a step has no result. -/
def run : σ → List α → Option σ
  | s, [] => some s
  | s, a :: rest =>
    match step s a with
    | none => none
    | some s' => run s' rest

/-- The run passes through the state. -/
def Visits : σ → List α → σ → Prop
  | start, [], s => s = start
  | start, a :: rest, s => s = start ∨ ∃ next, step start a = some next ∧ Visits next rest s

/-- The run takes the event in the state. -/
def Takes : σ → List α → σ → α → Prop
  | _, [], _, _ => False
  | start, a :: rest, s, b => (s = start ∧ b = a) ∨ ∃ next, step start a = some next ∧ Takes next rest s b

variable {step}

theorem run_cons_eq_some {start final : σ} {a : α} {rest : List α} (hrun : run step start (a :: rest) = some final) :
    ∃ next, step start a = some next ∧ run step next rest = some final := by
  unfold run at hrun
  cases hstep : step start a with
  | none => simp [hstep] at hrun
  | some next =>
    simp only [hstep] at hrun
    exact ⟨next, rfl, hrun⟩

/-- A run of one event is one step. -/
theorem run_singleton (s : σ) (a : α) : run step s [a] = step s a := by
  rw [run]
  cases step s a <;> rfl

/-- What every step preserves holds at the end of every run. -/
theorem run_invariant {I : σ → Prop} {start final : σ} {events : List α}
    (hstep : ∀ s a s', a ∈ events → I s → step s a = some s' → I s') (hstart : I start)
    (hrun : run step start events = some final) : I final := by
  induction events generalizing start with
  | nil =>
    cases hrun
    exact hstart
  | cons a rest ih =>
    obtain ⟨next, hnext, hrest⟩ := run_cons_eq_some hrun
    exact ih (fun s b s' hb => hstep s b s' (List.mem_cons_of_mem a hb))
      (hstep start a next List.mem_cons_self hstart hnext) hrest

/-- If every step from a state of the invariant has a result in it, every run has one. -/
theorem run_total {I : σ → Prop} {start : σ} {events : List α}
    (hstep : ∀ s a, a ∈ events → I s → ∃ s', step s a = some s' ∧ I s') (hstart : I start) :
    ∃ final, run step start events = some final ∧ I final := by
  induction events generalizing start with
  | nil => exact ⟨start, rfl, hstart⟩
  | cons a rest ih =>
    obtain ⟨next, hnext, hI⟩ := hstep start a List.mem_cons_self hstart
    obtain ⟨final, hrun, hfinal⟩ := ih (fun s b hb => hstep s b (List.mem_cons_of_mem a hb)) hI
    refine ⟨final, ?_, hfinal⟩
    rw [run, hnext]
    exact hrun

/-- What every step preserves holds in every state a run passes through. -/
theorem visits_invariant {I : σ → Prop} (hstep : ∀ s a s', I s → step s a = some s' → I s') {start s : σ}
    {events : List α} (hstart : I start) (hvisits : Visits step start events s) : I s := by
  induction events generalizing start with
  | nil =>
    rw [hvisits]
    exact hstart
  | cons a rest ih =>
    rcases hvisits with rfl | ⟨next, hnext, hrest⟩
    · exact hstart
    · exact ih (hstep start a next hstart hnext) hrest

theorem visits_of_takes {start s : σ} {events : List α} {a : α} (htakes : Takes step start events s a) :
    Visits step start events s := by
  induction events generalizing start with
  | nil => cases htakes
  | cons b rest ih =>
    rcases htakes with ⟨rfl, -⟩ | ⟨next, hnext, hrest⟩
    · exact Or.inl rfl
    · exact Or.inr ⟨next, hnext, ih hrest⟩

theorem mem_of_takes {start s : σ} {events : List α} {a : α} (htakes : Takes step start events s a) : a ∈ events := by
  induction events generalizing start with
  | nil => cases htakes
  | cons b rest ih =>
    rcases htakes with ⟨-, rfl⟩ | ⟨next, -, htail⟩
    · exact List.mem_cons_self
    · exact List.mem_cons_of_mem b (ih htail)

/-- If in the states that matter a guard on the step says exactly whether the
    property survives it, then the property holds throughout a run exactly when
    every step of the run meets the guard. -/
theorem visits_iff_takes_of_taken {I P : σ → Prop} {G : σ → α → Prop} {start final : σ} {events : List α}
    (hstep : ∀ s a s', Takes step start events s a → I s → P s → step s a = some s' → I s')
    (hguard : ∀ s a s', Takes step start events s a → I s → P s → step s a = some s' → (P s' ↔ G s a))
    (hstart : I start) (hprop : P start) (hrun : run step start events = some final) :
    (∀ s, Visits step start events s → P s) ↔ ∀ s a, Takes step start events s a → G s a := by
  induction events generalizing start with
  | nil =>
    constructor
    · intro _ s a htakes
      cases htakes
    · intro _ s hvisits
      rw [hvisits]
      exact hprop
  | cons a rest ih =>
    obtain ⟨next, hnext, hrest⟩ := run_cons_eq_some hrun
    have hfirst : Takes step start (a :: rest) start a := Or.inl ⟨rfl, rfl⟩
    have hlater : ∀ s b, Takes step next rest s b → Takes step start (a :: rest) s b :=
      fun s b htakes => Or.inr ⟨next, hnext, htakes⟩
    have hI := hstep start a next hfirst hstart hprop hnext
    have hG := hguard start a next hfirst hstart hprop hnext
    have hrestIff := ih (fun s b s' hb => hstep s b s' (hlater s b hb)) (fun s b s' hb => hguard s b s' (hlater s b hb)) hI
    constructor
    · intro hall s b htakes
      have hP : P next := hall next (Or.inr ⟨next, hnext, by cases rest <;> simp [Visits]⟩)
      rcases htakes with ⟨rfl, rfl⟩ | ⟨other, hother, htail⟩
      · exact hG.mp hP
      · obtain rfl : next = other := Option.some.inj (hnext.symm.trans hother)
        exact (hrestIff hP hrest).mp (fun s' hs' => hall s' (Or.inr ⟨next, hnext, hs'⟩)) s b htail
    · intro hall s hvisits
      have hP : P next := hG.mpr (hall start a hfirst)
      rcases hvisits with rfl | ⟨other, hother, htail⟩
      · exact hprop
      · obtain rfl : next = other := Option.some.inj (hnext.symm.trans hother)
        exact (hrestIff hP hrest).mpr (fun s' b hs' => hall s' b (hlater s' b hs')) s htail

/-- The same where it is enough to know the events. -/
theorem visits_iff_takes {I P : σ → Prop} {G : σ → α → Prop} {start final : σ} {events : List α}
    (hstep : ∀ s a s', a ∈ events → I s → P s → step s a = some s' → I s')
    (hguard : ∀ s a s', a ∈ events → I s → P s → step s a = some s' → (P s' ↔ G s a))
    (hstart : I start) (hprop : P start) (hrun : run step start events = some final) :
    (∀ s, Visits step start events s → P s) ↔ ∀ s a, Takes step start events s a → G s a :=
  visits_iff_takes_of_taken (fun s a s' htakes => hstep s a s' (mem_of_takes htakes))
    (fun s a s' htakes => hguard s a s' (mem_of_takes htakes)) hstart hprop hrun

variable (step) in
/-- After every step of the run that clears there is one that sets. -/
def Followed (clears sets : σ → α → Prop) : σ → List α → Prop
  | _, [] => True
  | start, a :: rest => ∀ next, step start a = some next →
      (clears start a → ∃ s b, Takes step next rest s b ∧ sets s b) ∧ Followed clears sets next rest

private theorem final_iff_followed_or {I P : σ → Prop} {clears sets : σ → α → Prop} {start final : σ} {events : List α}
    (hstep : ∀ s a s', a ∈ events → I s → step s a = some s' → I s')
    (hset : ∀ s a s', a ∈ events → I s → sets s a → step s a = some s' → P s')
    (hclear : ∀ s a s', a ∈ events → I s → clears s a → step s a = some s' → ¬ P s')
    (hkeep : ∀ s a s', a ∈ events → I s → ¬ sets s a → ¬ clears s a → step s a = some s' → (P s' ↔ P s))
    (hstart : I start) (hrun : run step start events = some final) :
    P final ↔ Followed step clears sets start events ∧
      (P start ∨ ∃ s b, Takes step start events s b ∧ sets s b) := by
  induction events generalizing start with
  | nil =>
    cases hrun
    simp [Followed, Takes]
  | cons a rest ih =>
    obtain ⟨next, hnext, hrest⟩ := run_cons_eq_some hrun
    have htakes : (∃ s b, Takes step start (a :: rest) s b ∧ sets s b) ↔
        sets start a ∨ ∃ s b, Takes step next rest s b ∧ sets s b := by
      constructor
      · rintro ⟨s, b, ⟨rfl, rfl⟩ | ⟨other, hother, htail⟩, hsets⟩
        · exact Or.inl hsets
        · obtain rfl : next = other := Option.some.inj (hnext.symm.trans hother)
          exact Or.inr ⟨s, b, htail, hsets⟩
      · rintro (hsets | ⟨s, b, htail, hsets⟩)
        · exact ⟨start, a, Or.inl ⟨rfl, rfl⟩, hsets⟩
        · exact ⟨s, b, Or.inr ⟨next, hnext, htail⟩, hsets⟩
    have hfollowed : Followed step clears sets start (a :: rest) ↔
        (clears start a → ∃ s b, Takes step next rest s b ∧ sets s b) ∧ Followed step clears sets next rest := by
      constructor
      · exact fun h => h next hnext
      · intro h other hother
        obtain rfl : next = other := Option.some.inj (hnext.symm.trans hother)
        exact h
    have ha : a ∈ a :: rest := List.mem_cons_self
    have hmem : ∀ {b}, b ∈ rest → b ∈ a :: rest := List.mem_cons_of_mem a
    rw [ih (fun s b s' hb => hstep s b s' (hmem hb)) (fun s b s' hb => hset s b s' (hmem hb))
      (fun s b s' hb => hclear s b s' (hmem hb)) (fun s b s' hb => hkeep s b s' (hmem hb))
      (hstep start a next ha hstart hnext) hrest, hfollowed, htakes]
    generalize (∃ s b, Takes step next rest s b ∧ sets s b) = later
    by_cases hclears : clears start a
    · have hcleared := hclear start a next ha hstart hclears hnext
      constructor
      · rintro ⟨hrest, hP | hlater⟩
        · exact absurd hP hcleared
        · exact ⟨⟨fun _ => hlater, hrest⟩, Or.inr (Or.inr hlater)⟩
      · rintro ⟨⟨hlater, hrest⟩, -⟩
        exact ⟨hrest, Or.inr (hlater hclears)⟩
    · by_cases hsets : sets start a
      · have hP := hset start a next ha hstart hsets hnext
        exact ⟨fun h => ⟨⟨fun hc => absurd hc hclears, h.1⟩, Or.inr (Or.inl hsets)⟩, fun h => ⟨h.1.2, Or.inl hP⟩⟩
      · rw [hkeep start a next ha hstart hsets hclears hnext]
        constructor
        · rintro ⟨hrest, hP⟩
          exact ⟨⟨fun hc => absurd hc hclears, hrest⟩, hP.imp_right Or.inr⟩
        · rintro ⟨⟨-, hrest⟩, hP⟩
          exact ⟨hrest, hP.imp_right fun h => h.resolve_left hsets⟩

/-- A property that some steps set, others clear and the rest keep holds at the end
    of a run exactly when every clearing step is followed by a setting one. -/
theorem final_iff_followed {I P : σ → Prop} {clears sets : σ → α → Prop} {start final : σ} {events : List α}
    (hstep : ∀ s a s', a ∈ events → I s → step s a = some s' → I s')
    (hset : ∀ s a s', a ∈ events → I s → sets s a → step s a = some s' → P s')
    (hclear : ∀ s a s', a ∈ events → I s → clears s a → step s a = some s' → ¬ P s')
    (hkeep : ∀ s a s', a ∈ events → I s → ¬ sets s a → ¬ clears s a → step s a = some s' → (P s' ↔ P s))
    (hstart : I start) (hprop : P start) (hrun : run step start events = some final) :
    P final ↔ Followed step clears sets start events := by
  rw [final_iff_followed_or hstep hset hclear hkeep hstart hrun]
  exact and_iff_left (Or.inl hprop)

end transition
