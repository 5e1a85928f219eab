import Mathlib

namespace framing

variable {α μ : Type}

/-- What a parser finds at the head of a buffer. -/
inductive Parsed (μ : Type) where
  | incomplete
  | invalid
  | complete (msg : μ) (consumed : Nat)
deriving DecidableEq

/-- The parser waits while the frame is cut short, and finds the message when the frame is
    there, whatever follows it. -/
structure Framed (parse : List α → Parsed μ) (frame : List α) (msg : μ) : Prop where
  short : ∀ part rest, part ++ rest = frame → rest ≠ [] → parse part = .incomplete
  whole : ∀ rest, parse (frame ++ rest) = .complete msg frame.length

/-- The parser takes these messages out of the buffer one after another and then waits. -/
inductive Drains (parse : List α → Parsed μ) : List α → List μ → List α → Prop where
  | wait {buf : List α} (hparse : parse buf = .incomplete) : Drains parse buf [] buf
  | next {buf left : List α} {msg : μ} {msgs : List μ} {consumed : Nat} (hparse : parse buf = .complete msg consumed)
      (hrest : Drains parse (buf.drop consumed) msgs left) : Drains parse buf (msg :: msgs) left

/-- The parser takes these messages out of the buffer one after another, whatever it finds in the rest. -/
inductive Splits (parse : List α → Parsed μ) : List α → List μ → List α → Prop where
  | stop {buf : List α} : Splits parse buf [] buf
  | next {buf left : List α} {msg : μ} {msgs : List μ} {consumed : Nat} (hparse : parse buf = .complete msg consumed)
      (hrest : Splits parse (buf.drop consumed) msgs left) : Splits parse buf (msg :: msgs) left

/-- The buffer takes in the chunks and is drained after each. Every buffer that is drained
    meets the predicate. -/
inductive Receives (parse : List α → Parsed μ) (admits : List α → Prop) :
    List α → List (List α) → List μ → List α → Prop where
  | done {buf : List α} : Receives parse admits buf [] [] buf
  | chunk {buf chunk mid left : List α} {chunks : List (List α)} {now later : List μ} (hadmits : admits (buf ++ chunk))
      (hdrains : Drains parse (buf ++ chunk) now mid) (hrest : Receives parse admits mid chunks later left) :
      Receives parse admits buf (chunk :: chunks) (now ++ later) left

variable {parse : List α → Parsed μ}

/-- Every buffer is split up to a rest that is cut short or malformed. -/
theorem exists_splits
    (hconsumed : ∀ buf msg consumed, parse buf = .complete msg consumed → 0 < consumed ∧ consumed ≤ buf.length)
    (buf : List α) : ∃ msgs left, Splits parse buf msgs left ∧ (parse left = .incomplete ∨ parse left = .invalid) := by
  -- A message takes at least one byte out of the buffer.
  induction hlength : buf.length using Nat.strong_induction_on generalizing buf with
  | _ length ih =>
    cases hparse : parse buf with
    | incomplete => exact ⟨[], buf, .stop, Or.inl hparse⟩
    | invalid => exact ⟨[], buf, .stop, Or.inr hparse⟩
    | complete msg consumed =>
      obtain ⟨hpos, hle⟩ := hconsumed buf msg consumed hparse
      have hshorter : (buf.drop consumed).length < length := by
        rw [List.length_drop]
        omega
      obtain ⟨msgs, left, hsplits, hends⟩ := ih _ hshorter _ rfl
      exact ⟨msg :: msgs, left, .next hparse hsplits, hends⟩

/-- A buffer that starts a stream of frames gives up the messages of its whole frames. What is
    left starts the stream of the others. -/
theorem drains_of_append (hempty : parse [] = .incomplete) {frames : List (List α)} {msgs : List μ}
    (hframed : List.Forall₂ (Framed parse) frames msgs) {buf rest : List α} (hbuf : buf ++ rest = frames.flatten) :
    ∃ now later frames' left, Drains parse buf now left ∧ parse left = .incomplete ∧ msgs = now ++ later ∧
      List.Forall₂ (Framed parse) frames' later ∧ frames' <:+ frames ∧ left ++ rest = frames'.flatten := by
  induction hframed generalizing buf with
  | nil =>
    rw [List.flatten_nil, List.append_eq_nil_iff] at hbuf
    obtain ⟨rfl, rfl⟩ := hbuf
    exact ⟨[], [], [], [], .wait hempty, hempty, rfl, .nil, List.suffix_refl _, rfl⟩
  | @cons frame msg frames msgs hhead htail ih =>
    have hsplit := hbuf
    rw [List.flatten_cons, List.append_eq_append_iff] at hsplit
    -- Either the first frame is not there yet, or it is and the rest of the buffer starts the other frames.
    have hcases : (∃ missing, buf ++ missing = frame ∧ missing ≠ []) ∨
        ∃ tail, buf = frame ++ tail ∧ tail ++ rest = frames.flatten := by
      obtain ⟨missing, hframe, hrest⟩ | ⟨tail, hfront, hflat⟩ := hsplit
      · by_cases hmissing : missing = []
        · subst hmissing
          rw [List.append_nil] at hframe
          exact Or.inr ⟨[], by rw [List.append_nil, hframe], hrest⟩
        · exact Or.inl ⟨missing, hframe.symm, hmissing⟩
      · exact Or.inr ⟨tail, hfront, hflat.symm⟩
    obtain ⟨missing, hframe, hmissing⟩ | ⟨tail, rfl, htailFlat⟩ := hcases
    · have hwait := hhead.short buf missing hframe hmissing
      exact ⟨[], msg :: msgs, frame :: frames, buf, .wait hwait, hwait, rfl, .cons hhead htail, List.suffix_refl _, hbuf⟩
    · obtain ⟨now, later, frames', left, hdrains, hwait, hmsgs, hframed', hsuffix, hleft⟩ := ih htailFlat
      refine ⟨msg :: now, later, frames', left, ?_, hwait, by rw [hmsgs, List.cons_append], hframed',
        hsuffix.trans (List.suffix_cons _ _), hleft⟩
      refine .next (hhead.whole tail) ?_
      rw [List.drop_left]
      exact hdrains

/-- A stream of frames is received whole, however it is cut into chunks. -/
theorem receives_of_frames (hempty : parse [] = .incomplete) {admits : List α → Prop} {chunks : List (List α)}
    {frames : List (List α)} {msgs : List μ} (hframed : List.Forall₂ (Framed parse) frames msgs)
    (hadmits : ∀ frames' buf, frames' <:+ frames → buf <+: frames'.flatten → admits buf) {buf : List α}
    (hwait : parse buf = .incomplete) (hbuf : buf ++ chunks.flatten = frames.flatten) :
    Receives parse admits buf chunks msgs [] := by
  induction chunks generalizing buf frames msgs with
  | nil =>
    rw [List.flatten_nil, List.append_nil] at hbuf
    cases hframed with
    | nil =>
      rw [hbuf]
      exact .done
    | cons hhead _ =>
      -- A whole frame would not have been left waiting.
      rw [hbuf, List.flatten_cons, hhead.whole] at hwait
      cases hwait
  | cons chunk chunks ih =>
    rw [List.flatten_cons, ← List.append_assoc] at hbuf
    obtain ⟨now, later, frames', left, hdrains, hleft, rfl, hframed', hsuffix, hrest⟩ :=
      drains_of_append hempty hframed hbuf
    refine .chunk (hadmits frames _ (List.suffix_refl _) ⟨_, hbuf⟩) hdrains (ih hframed' ?_ hleft hrest)
    exact fun frames'' buf'' hlater => hadmits frames'' buf'' (hlater.trans hsuffix)

end framing
