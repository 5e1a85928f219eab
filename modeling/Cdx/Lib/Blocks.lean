import Mathlib

namespace blocks

variable {σ β : Type}

/-- A step taken over `k` blocks of `n` elements, one block after another. -/
def foldBlocks (step : σ → List β → σ) (n : Nat) : Nat → σ → List β → σ
  | 0, s, _ => s
  | k + 1, s, data => foldBlocks step n k (step s (data.take n)) (data.drop n)

/-- What a stream has come to: the state after its whole blocks, and the elements of a block
    that is not complete. -/
structure Pending (σ β : Type) where
  state : σ
  rest : List β

/-- What the state comes to once the data have been taken in. -/
def absorb (step : σ → List β → σ) (n : Nat) (s : σ) (data : List β) : Pending σ β where
  state := foldBlocks step n (data.length / n) s data
  rest := data.drop (n * (data.length / n))

variable (step : σ → List β → σ) {n : Nat}

theorem absorb_of_lt {data : List β} (hdata : data.length < n) (s : σ) : absorb step n s data = ⟨s, data⟩ := by
  rw [absorb, Nat.div_eq_of_lt hdata]
  rfl

theorem absorb_block (hn : 0 < n) {block : List β} (hblock : block.length = n) (s : σ) (data : List β) :
    absorb step n s (block ++ data) = absorb step n (step s block) data := by
  have hcount : (block ++ data).length / n = data.length / n + 1 := by
    rw [List.length_append, hblock, Nat.add_div_left _ hn]
  have hrest : (block ++ data).drop (n * (data.length / n + 1)) = data.drop (n * (data.length / n)) := by
    rw [Nat.mul_add_one, Nat.add_comm, ← List.drop_drop, List.drop_left' hblock]
  rw [absorb, hcount, foldBlocks, List.take_left' hblock, List.drop_left' hblock, hrest, absorb]

/-- Less than a block stays over. -/
theorem length_rest_absorb (s : σ) (data : List β) : (absorb step n s data).rest.length = data.length % n := by
  rw [absorb, List.length_drop, Nat.mod_def]

/-- Data that end with a block leave nothing over. -/
theorem absorb_of_dvd {data : List β} (hdata : n ∣ data.length) (s : σ) :
    absorb step n s data = ⟨foldBlocks step n (data.length / n) s data, []⟩ := by
  rw [absorb, Nat.mul_div_cancel' hdata, List.drop_length]

/-- Data that come in after others continue from where those have left off. -/
theorem absorb_append (hn : 0 < n) (s : σ) (xs ys : List β) :
    absorb step n (absorb step n s xs).state ((absorb step n s xs).rest ++ ys) = absorb step n s (xs ++ ys) := by
  induction hk : xs.length / n generalizing s xs with
  | zero =>
    rw [absorb_of_lt step ((Nat.div_eq_zero_iff_lt hn).mp hk)]
  | succ k ih =>
    have hlong : n ≤ xs.length := by
      by_contra hshort
      rw [Nat.div_eq_of_lt (Nat.lt_of_not_le hshort)] at hk
      cases hk
    have hblock : (xs.take n).length = n := by rw [List.length_take, Nat.min_eq_left hlong]
    have hrest : (xs.drop n).length / n = k := by
      have hfirst := Nat.div_eq_sub_div hn hlong
      rw [List.length_drop]
      omega
    rw [← List.take_append_drop n xs, absorb_block step hn hblock, ih _ _ hrest, List.append_assoc, absorb_block step hn hblock]

end blocks
