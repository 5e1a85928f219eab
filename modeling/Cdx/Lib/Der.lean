import Cdx.Lib.Codec

namespace der

open codec

/-! Strict DER of two INTEGERs that are not negative, in the short form of lengths. -/

/-- The number that the contents of an INTEGER write, most significant byte first. -/
def value (contents : List UInt8) : Nat := leDecode contents.reverse

/-- Contents that are not negative, and have no leading zero that the sign does not need. -/
def minimal : List UInt8 → Bool
  | [] => false
  | [b] => b < 0x80
  | b :: c :: _ => b < 0x80 && !(b == 0 && c < 0x80)

def integer (contents : List UInt8) : List UInt8 := 0x02 :: UInt8.ofNat contents.length :: contents

def pair (a b : List UInt8) : List UInt8 := 0x30 :: UInt8.ofNat (integer a ++ integer b).length :: (integer a ++ integer b)

/-- Takes an INTEGER off the front, if it is strict. -/
def readInteger : List UInt8 → Option (Nat × List UInt8)
  | tag :: len :: rest =>
    if tag = 0x02 ∧ len < 0x80 ∧ len.toNat ≤ rest.length ∧ minimal (rest.take len.toNat) then
      some (value (rest.take len.toNat), rest.drop len.toNat)
    else none
  | _ => none

/-- The two numbers of a strict SEQUENCE that has nothing else. -/
def readPair : List UInt8 → Option (Nat × Nat)
  | tag :: len :: body =>
    if tag = 0x30 ∧ len < 0x80 ∧ body.length = len.toNat then
      match readInteger body with
      | none => none
      | some (r, rest) =>
        match readInteger rest with
        | some (s, []) => some (r, s)
        | _ => none
    else none
  | _ => none

section Integer

variable {contents contents' : List UInt8}

theorem value_cons (b : UInt8) (rest : List UInt8) : value (b :: rest) = b.toNat * 256 ^ rest.length + value rest := by
  rw [value, List.reverse_cons, leDecode_append, List.length_reverse, leDecode, leDecode, value]
  ring

theorem value_lt (contents : List UInt8) : value contents < 256 ^ contents.length := by
  have hlt := leDecode_lt contents.reverse
  rwa [List.length_reverse] at hlt

theorem ne_nil_of_minimal (hminimal : minimal contents = true) : contents ≠ [] := by
  intro hnil
  rw [hnil] at hminimal
  cases hminimal

/-- The first byte leaves the sign bit clear, so the number is below half of what its length allows. -/
theorem value_lt_of_minimal (hminimal : minimal contents = true) : value contents < 128 * 256 ^ (contents.length - 1) := by
  obtain ⟨b, rest, rfl⟩ := List.exists_cons_of_ne_nil (ne_nil_of_minimal hminimal)
  have hb : b.toNat < 128 := by
    cases rest with
    | nil => simpa [minimal, UInt8.lt_iff_toNat_lt] using hminimal
    | cons c rest =>
      simp only [minimal, Bool.and_eq_true, decide_eq_true_eq, UInt8.lt_iff_toNat_lt] at hminimal
      exact hminimal.1
  have hrest := value_lt rest
  have hmul := Nat.mul_le_mul_right (256 ^ rest.length) hb
  rw [Nat.succ_mul] at hmul
  rw [value_cons, List.length_cons, Nat.add_sub_cancel]
  omega

/-- Without a superfluous zero the number needs all its bytes. -/
theorem le_value_of_minimal (hminimal : minimal contents = true) (hlong : 2 ≤ contents.length) :
    128 * 256 ^ (contents.length - 2) ≤ value contents := by
  rcases contents with _ | ⟨b, _ | ⟨c, rest⟩⟩
  · cases hminimal
  · simp at hlong
  · simp only [minimal, Bool.and_eq_true, decide_eq_true_eq, Bool.not_eq_true', Bool.and_eq_false_imp, beq_iff_eq,
      decide_eq_false_iff_not, UInt8.lt_iff_toNat_lt] at hminimal
    have hlength : (b :: c :: rest).length - 2 = rest.length := rfl
    rw [value_cons, value_cons, hlength, List.length_cons, Nat.pow_succ]
    by_cases hzero : b = 0
    · have hc : 128 ≤ c.toNat := Nat.le_of_not_lt (hminimal.2 hzero)
      have hmul := Nat.mul_le_mul_right (256 ^ rest.length) hc
      omega
    · have hb : 1 ≤ b.toNat := Nat.one_le_iff_ne_zero.mpr fun h => hzero (UInt8.toNat_inj.mp h)
      have hmul := Nat.mul_le_mul_right (256 ^ rest.length * 256) hb
      omega

/-- Each number has one minimal form. -/
theorem minimal_unique (hminimal : minimal contents = true) (hminimal' : minimal contents' = true)
    (hvalue : value contents = value contents') : contents = contents' := by
  have hlength : ∀ {c c' : List UInt8}, minimal c = true → minimal c' = true → value c = value c' → c'.length ≤ c.length := by
    intro c c' hc hc' hsame
    by_contra hlonger
    have hpos := List.length_pos_of_ne_nil (ne_nil_of_minimal hc)
    have hlt := value_lt_of_minimal hc
    have hle := le_value_of_minimal hc' (by omega)
    have hpow : 256 ^ (c.length - 1) ≤ 256 ^ (c'.length - 2) := Nat.pow_le_pow_right (by decide) (by omega)
    omega
  have hsize := Nat.le_antisymm (hlength hminimal' hminimal hvalue.symm) (hlength hminimal hminimal' hvalue)
  rw [← List.reverse_inj, ← leEncode_leDecode contents.reverse, ← leEncode_leDecode contents'.reverse, List.length_reverse,
    List.length_reverse, hsize]
  exact congrArg _ hvalue

theorem toNat_shortLength {n : Nat} (hn : n < 128) : (UInt8.ofNat n).toNat = n := by
  rw [UInt8.toNat_ofNat']
  omega

theorem readInteger_integer (hminimal : minimal contents = true) (hshort : contents.length < 128) (rest : List UInt8) :
    readInteger (integer contents ++ rest) = some (value contents, rest) := by
  have hlen := toNat_shortLength hshort
  rw [integer, List.cons_append, List.cons_append, readInteger, hlen, List.take_left, List.drop_left]
  refine if_pos ⟨rfl, ?_, by rw [List.length_append]; omega, hminimal⟩
  rw [UInt8.lt_iff_toNat_lt, hlen]
  exact hshort

theorem readInteger_eq_some {bytes rest : List UInt8} {n : Nat} (hread : readInteger bytes = some (n, rest)) :
    ∃ contents, minimal contents = true ∧ value contents = n ∧ bytes = integer contents ++ rest := by
  rcases bytes with _ | ⟨tag, _ | ⟨len, body⟩⟩
  · cases hread
  · cases hread
  · rw [readInteger] at hread
    split at hread
    next hstrict =>
      obtain ⟨htag, hlen, hroom, hminimal⟩ := hstrict
      cases hread
      refine ⟨body.take len.toNat, hminimal, rfl, ?_⟩
      rw [integer, List.length_take, Nat.min_eq_left hroom, UInt8.ofNat_toNat, htag, List.cons_append, List.cons_append,
        List.take_append_drop]
    next => cases hread

end Integer

/-- The strict form of two numbers is the only byte string that is read as them. -/
theorem readPair_iff {a b : List UInt8} (ha : minimal a = true) (hb : minimal b = true)
    (hshort : (integer a ++ integer b).length < 128) (sig : List UInt8) :
    readPair sig = some (value a, value b) ↔ sig = pair a b := by
  have hlengths : (integer a ++ integer b).length = a.length + b.length + 4 := by
    simp only [integer, List.length_append, List.length_cons]
    omega
  constructor
  · intro hread
    rcases sig with _ | ⟨tag, _ | ⟨len, body⟩⟩
    · cases hread
    · cases hread
    · rw [readPair] at hread
      split at hread
      next hstrict =>
        obtain ⟨htag, hlen, hlength⟩ := hstrict
        cases hfirst : readInteger body with
        | none => rw [hfirst] at hread; cases hread
        | some first =>
          obtain ⟨r, rest⟩ := first
          rw [hfirst] at hread
          dsimp only at hread
          split at hread
          next s hsecond =>
            cases hread
            obtain ⟨a', ha', hr, hbody⟩ := readInteger_eq_some hfirst
            obtain ⟨b', hb', hs, hrest⟩ := readInteger_eq_some hsecond
            rw [minimal_unique ha' ha hr, hrest, minimal_unique hb' hb hs, List.append_nil] at hbody
            rw [pair, ← hbody, hlength, UInt8.ofNat_toNat, htag]
          next => cases hread
      next => cases hread
  · rintro rfl
    have hlen := toNat_shortLength hshort
    have hbyte : UInt8.ofNat (integer a ++ integer b).length < 0x80 := by
      rw [UInt8.lt_iff_toNat_lt, hlen]
      exact hshort
    have hlast : readInteger (integer b) = some (value b, []) := by
      have hread := readInteger_integer hb (by omega) []
      rwa [List.append_nil] at hread
    rw [pair, readPair, if_pos ⟨rfl, hbyte, hlen.symm⟩, readInteger_integer ha (by omega)]
    dsimp only
    rw [hlast]

end der
