import Cdx.Lib.Codec

namespace codec

variable {β α γ ε : Type}

/-- A decoder that says why it fails. -/
abbrev Labelled (β ε α : Type) := StateT (Cursor β) (Except ε) α

/-- The decoder with the reason of its failure. -/
def label (e : ε) (d : Decoder β α) : Labelled β ε α := fun c => (d.run c).elim (.error e) .ok

/-- A step that succeeds has two steps that do. -/
theorem run_bind_eq_ok {d : Labelled β ε α} {f : α → Labelled β ε γ} {c final : Cursor β} {b : γ}
    (hrun : (d >>= f).run c = .ok (b, final)) : ∃ a next, d.run c = .ok (a, next) ∧ (f a).run next = .ok (b, final) := by
  rw [StateT.run_bind] at hrun
  cases hd : d.run c with
  | error e =>
    rw [hd] at hrun
    cases hrun
  | ok read =>
    rw [hd] at hrun
    exact ⟨read.1, read.2, rfl, hrun⟩

/-- The elements that must stand at the cursor. -/
def exactly [DecidableEq β] (expected : List β) : Decoder β Unit := do
  let found ← take expected.length
  if found ≠ expected then failure

theorem reads_exactly [DecidableEq β] (expected : List β) : Reads (exactly expected) expected () := by
  intro before after
  have htake := reads_take (rfl : expected.length = expected.length) before after
  simp only [exactly, StateT.run_bind, htake, Option.bind_eq_bind, Option.bind_some, ne_eq, not_true_eq_false, if_false,
    StateT.run_pure, Option.pure_def]

/-- The decoder takes exactly `input` off the cursor, whatever surrounds it, and returns `a`. -/
def Accepts (d : Labelled β ε α) (input : List β) (a : α) : Prop :=
  ∀ before after, d.run ⟨before ++ (input ++ after), before.length⟩ =
    .ok (a, ⟨before ++ (input ++ after), before.length + input.length⟩)

theorem Reads.label {d : Decoder β α} {input : List β} {a : α} (hd : Reads d input a) (e : ε) :
    Accepts (codec.label e d) input a := by
  intro before after
  rw [StateT.run, codec.label, hd before after, Option.elim_some]

theorem Accepts.bind {d : Labelled β ε α} {f : α → Labelled β ε γ} {xs ys : List β} {a : α} {b : γ}
    (hd : Accepts d xs a) (hf : Accepts (f a) ys b) : Accepts (d >>= f) (xs ++ ys) b := by
  intro before after
  have hfirst := hd before (ys ++ after)
  have hsecond := hf (before ++ xs) after
  simp only [List.append_assoc, List.length_append] at hfirst hsecond ⊢
  rw [StateT.run_bind, hfirst]
  exact hsecond.trans (by rw [Nat.add_assoc])

/-- Behind what the first step takes, the second decides. -/
theorem Accepts.run_bind {d : Labelled β ε α} {xs : List β} {a : α} (hd : Accepts d xs a) (f : α → Labelled β ε γ)
    (before after : List β) :
    (d >>= f).run ⟨before ++ (xs ++ after), before.length⟩ = (f a).run ⟨(before ++ xs) ++ after, (before ++ xs).length⟩ := by
  rw [StateT.run_bind, hd before after, List.append_assoc, List.length_append]
  rfl

/-- A last step that only wraps the value reads nothing more. -/
theorem Accepts.bind_pure {d : Labelled β ε α} {xs : List β} {a : α} (hd : Accepts d xs a) (g : α → γ) :
    Accepts (d >>= fun x => pure (g x)) xs (g a) := by
  intro before after
  rw [StateT.run_bind, hd before after]
  rfl

/-- Reading a buffer that is the encoding. -/
theorem Accepts.run_all {d : Labelled β ε α} {xs : List β} {a : α} (hd : Accepts d xs a) :
    d.run ⟨xs, 0⟩ = .ok (a, ⟨xs, xs.length⟩) := by
  simpa using hd [] []

end codec
