import Mathlib.Data.List.Basic

namespace pairTree

variable {α β : Type}

/-- Neighbours side by side. The last element of an odd list stands beside itself. -/
def paired : List α → List (α × α)
  | [] => []
  | [a] => [(a, a)]
  | a :: b :: rest => (a, b) :: paired rest

theorem length_paired (xs : List α) : (paired xs).length = (xs.length + 1) / 2 := by
  induction xs using paired.induct with
  | case1 => simp [paired]
  | case2 a => simp [paired]
  | case3 a b rest ih =>
    simp only [paired, List.length_cons, ih]
    omega

/-- Lists of one length are told apart by their pairs. An odd list and the even one that
    repeats its last element are not. -/
theorem paired_injective {xs ys : List α} (hlength : xs.length = ys.length) (hpaired : paired xs = paired ys) : xs = ys := by
  induction xs using paired.induct generalizing ys with
  | case1 => exact (List.length_eq_zero_iff.mp hlength.symm).symm
  | case2 a =>
    obtain ⟨b, rfl⟩ := List.length_eq_one_iff.mp hlength.symm
    cases hpaired
    rfl
  | case3 a b rest ih =>
    rcases ys with _ | ⟨c, _ | ⟨d, rest'⟩⟩
    · cases hlength
    · cases hlength
    · simp only [paired, List.cons.injEq, Prod.mk.injEq] at hpaired
      obtain ⟨⟨rfl, rfl⟩, hrest⟩ := hpaired
      rw [ih (by simpa using hlength) hrest]

/-- A function that tells the elements of two lists apart tells the lists apart. -/
theorem map_injective {f : α → β} {xs ys : List α} (hf : ∀ x ∈ xs, ∀ y ∈ ys, f x = f y → x = y)
    (hmap : xs.map f = ys.map f) : xs = ys := by
  induction xs generalizing ys with
  | nil => exact (List.map_eq_nil_iff.mp hmap.symm).symm
  | cons x xs ih =>
    cases ys with
    | nil => cases hmap
    | cons y ys =>
      obtain ⟨hhead, htail⟩ := List.cons.inj hmap
      rw [hf x List.mem_cons_self y List.mem_cons_self hhead,
        ih (fun a ha b hb => hf a (List.mem_cons_of_mem _ ha) b (List.mem_cons_of_mem _ hb)) htail]

variable (node : α × α → α) (empty : α)

/-- The element left when a list is replaced, round by round, by the nodes over its pairs. -/
def root : Nat → List α → α
  | _, [] => empty
  | _, [a] => a
  | 0, a :: _ => a
  | rounds + 1, xs => root rounds ((paired xs).map node)

/-- The pairs whose nodes are formed on the way to the root. -/
def inputs : Nat → List α → List (α × α)
  | rounds + 1, a :: b :: rest => paired (a :: b :: rest) ++ inputs rounds ((paired (a :: b :: rest)).map node)
  | _, _ => []

variable {node empty}

/-- The root fixes the leaves, given their number and nodes that are told apart. -/
theorem root_injective {rounds : Nat} {xs ys : List α} (hrounds : xs.length ≤ rounds) (hlength : xs.length = ys.length)
    (hnode : ∀ p ∈ inputs node rounds xs, ∀ q ∈ inputs node rounds ys, node p = node q → p = q)
    (hroot : root node empty rounds xs = root node empty rounds ys) : xs = ys := by
  induction rounds generalizing xs ys with
  | zero =>
    have hxs : xs = [] := List.length_eq_zero_iff.mp (by omega)
    have hys : ys = [] := List.length_eq_zero_iff.mp (by omega)
    rw [hxs, hys]
  | succ rounds ih =>
    rcases xs with _ | ⟨a, _ | ⟨b, rest⟩⟩
    · exact (List.length_eq_zero_iff.mp hlength.symm).symm
    · obtain ⟨c, rfl⟩ := List.length_eq_one_iff.mp hlength.symm
      rw [show a = c from hroot]
    · rcases ys with _ | ⟨c, _ | ⟨d, rest'⟩⟩
      · cases hlength
      · cases hlength
      · simp only [inputs, List.mem_append] at hnode
        have hlevel : (paired (a :: b :: rest)).map node = (paired (c :: d :: rest')).map node := by
          apply ih
          · rw [List.length_map, length_paired]
            simp only [List.length_cons] at hrounds ⊢
            omega
          · rw [List.length_map, List.length_map, length_paired, length_paired, hlength]
          · exact fun p hp q hq => hnode p (.inr hp) q (.inr hq)
          · exact hroot
        have hpairs := map_injective (fun p hp q hq => hnode p (.inl hp) q (.inl hq)) hlevel
        exact paired_injective hlength hpairs

end pairTree
