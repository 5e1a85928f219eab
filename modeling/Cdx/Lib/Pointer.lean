import Cdx.Lib.Walk

namespace pointer

variable {β : Type}

/-- Memory as a pointer sees it: the element at every offset. -/
abbrev Pointer (β : Type) := Nat → β

/-- The pointer `n` elements further on. -/
def shift (p : Pointer β) (n : Nat) : Pointer β := fun i => p (n + i)

/-- The `n` elements from an offset on. -/
def load (p : Pointer β) (pos n : Nat) : List β := (List.range n).map fun i => p (pos + i)

theorem load_shift (p : Pointer β) (k pos n : Nat) : load (shift p k) pos n = load p (k + pos) n := by
  simp only [load, shift, Nat.add_assoc]

/-- From the offset on the memory has these elements. -/
def Holds (p : Pointer β) (pos : Nat) (values : List β) : Prop := load p pos values.length = values

instance [DecidableEq β] (p : Pointer β) (pos : Nat) (values : List β) : Decidable (Holds p pos values) :=
  inferInstanceAs (Decidable (load p pos values.length = values))

theorem holds_cons {p : Pointer β} {pos : Nat} {a : β} {values : List β} :
    Holds p pos (a :: values) ↔ p pos = a ∧ Holds p (pos + 1) values := by
  simp only [Holds, load, List.length_cons, List.range_succ_eq_map, List.map_cons, List.map_map, List.cons.injEq, Nat.add_zero]
  refine and_congr_right fun _ => ?_
  rw [show ((fun i => p (pos + i)) ∘ Nat.succ) = fun i => p (pos + 1 + i) from funext fun i => congrArg p (by simp; omega)]

theorem holds_append {p : Pointer β} {pos : Nat} {xs ys : List β} :
    Holds p pos (xs ++ ys) ↔ Holds p pos xs ∧ Holds p (pos + xs.length) ys := by
  induction xs generalizing pos with
  | nil => exact ⟨fun h => ⟨rfl, h⟩, fun h => h.2⟩
  | cons x xs ih =>
    rw [List.cons_append, holds_cons, holds_cons, ih, List.length_cons, and_assoc, Nat.add_right_comm, Nat.add_assoc]

theorem holds_shift {p : Pointer β} {k pos : Nat} {values : List β} : Holds (shift p k) pos values ↔ Holds p (k + pos) values := by
  rw [Holds, load_shift, Holds]

theorem Holds.ne_of_notMem {p : Pointer β} {pos : Nat} {values : List β} (hp : Holds p pos values) {a : β} (ha : a ∉ values)
    {i : Nat} (hi : i < values.length) : p (pos + i) ≠ a := by
  intro heq
  apply ha
  rw [← hp, load, List.mem_map]
  exact ⟨i, List.mem_range.mpr hi, heq⟩

section Scan

variable [DecidableEq β]

/-- The loop that looks for an element among the `n` from an offset on. -/
def scan (p : Pointer β) (stop : β) : Nat → Nat → Nat
  | 0, pos => pos
  | n + 1, pos => if p pos = stop then pos else scan p stop n (pos + 1)

theorem scan_spec (p : Pointer β) (stop : β) (n pos : Nat) :
    pos ≤ scan p stop n pos ∧ scan p stop n pos ≤ pos + n ∧ (∀ i, pos ≤ i → i < scan p stop n pos → p i ≠ stop) ∧
      (scan p stop n pos < pos + n → p (scan p stop n pos) = stop) := by
  induction n generalizing pos with
  | zero => exact ⟨le_rfl, le_rfl, fun i hle hlt => absurd (hle.trans_lt hlt) (lt_irrefl _), fun h => absurd h (lt_irrefl _)⟩
  | succ n ih =>
    rw [scan]
    by_cases hstop : p pos = stop
    · rw [if_pos hstop]
      exact ⟨le_rfl, Nat.le_add_right _ _, fun i hle hlt => absurd (hle.trans_lt hlt) (lt_irrefl _), fun _ => hstop⟩
    · obtain ⟨hle, hbound, hbefore, hfound⟩ := ih (pos + 1)
      rw [if_neg hstop]
      refine ⟨by omega, by omega, fun i hi hlt => ?_, fun h => hfound (by omega)⟩
      by_cases hfirst : i = pos
      · rw [hfirst]
        exact hstop
      · exact hbefore i (by omega) hlt

/-- The loop ends at the first such element. -/
theorem scan_eq {p : Pointer β} {stop : β} {n pos k : Nat} (hpos : pos ≤ k) (hk : k < pos + n)
    (hbefore : ∀ i, pos ≤ i → i < k → p i ≠ stop) (hstop : p k = stop) : scan p stop n pos = k := by
  obtain ⟨hle, hbound, hpassed, hfound⟩ := scan_spec p stop n pos
  rcases Nat.lt_trichotomy (scan p stop n pos) k with hlt | heq | hgt
  · exact absurd (hfound (by omega)) (hbefore _ hle hlt)
  · exact heq
  · exact absurd hstop (hpassed k hpos hgt)

end Scan

end pointer
