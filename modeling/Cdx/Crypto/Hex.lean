import Cdx.Crypto.Arithmetic
import Cdx.Crypto.Hash
import Cdx.Lib.Stream

namespace cdx

open codec stream

namespace UInt256

/-! The text form of a number, and the two functions that read it back. A text is the bytes of a
`std::string`. -/

/-- The table of `getHex`. -/
def hexChars : Bytes := ascii "0123456789abcdef"

def hexChar (n : UInt64) : UInt8 := hexChars.getD n.toNat 0

/-- The inner loop of `getHex`: `n` bytes of the word are left, and byte `b` of the number is next. -/
def putHexWord : Nat → Nat → UInt64 → Bytes → Bytes
  | 0, _, _, s => s
  | n + 1, b, v, s =>
    putHexWord n (b + 1) (v >>> 8) (overwrite s ((31 - b) * 2) [hexChar ((v >>> 4) &&& 0xf), hexChar (v &&& 0xf)])

/-- `getHex`, as its loops place the characters. -/
def getHexBytes (a : UInt256) : Bytes :=
  [0, 1, 2, 3].foldl (fun s i => putHexWord 8 (i * 8) (a.word i) s) (List.replicate 64 48)

/-- Byte `k` of a text of 64 hex digits, in a word as `fromHex` has it. -/
def hexByte (h : Bytes) (k : Nat) : UInt64 :=
  ((nib (h.getD (k * 2) 0)).toUInt64 <<< 4) ||| (nib (h.getD (k * 2 + 1) 0)).toUInt64

/-- A byte joins word `(31 - k) / 8`. -/
def orByte (r : UInt256) (k : Nat) (byte : UInt64) : UInt256 :=
  let wordIdx := (31 - k) / 8
  let shift := (31 - k) % 8
  ofWords fun i => if i = wordIdx then r.word i ||| (byte <<< UInt64.ofNat (8 * shift)) else r.word i

/-- The number after the first `k` rounds of `fromHex`. -/
def fromHexRounds (h : Bytes) : Nat → UInt256
  | 0 => 0
  | k + 1 => (fromHexRounds h k).orByte k (hexByte h k)

def fromHex (hex : Bytes) : UInt256 := fromHexRounds (hexWindow hex) 32

/-- The loop of `fromHexReversed` that swaps the bytes from both ends, after `i` rounds. -/
def swapEnds (bytes : Bytes) : Nat → Bytes
  | 0 => bytes
  | i + 1 =>
    let bytes := swapEnds bytes i
    (bytes.set i (bytes.getD (31 - i) 0)).set (31 - i) (bytes.getD i 0)

section Swapped

variable {bytes : Bytes}

theorem length_swapEnds (i : Nat) : (swapEnds bytes i).length = bytes.length := by
  induction i with
  | zero => rfl
  | succ i ih => rw [swapEnds, List.length_set, List.length_set, ih]

theorem getElem?_swapEnds (hlength : bytes.length = 32) {i : Nat} (hi : i ≤ 16) {j : Nat} (hj : j < 32) :
    (swapEnds bytes i)[j]? = if j < i ∨ 31 - i < j then bytes[31 - j]? else bytes[j]? := by
  induction i generalizing j with
  | zero => rw [swapEnds, if_neg (by omega)]
  | succ i ih =>
    have hlow := ih (by omega) (j := i) (by omega)
    have hhigh := ih (by omega) (j := 31 - i) (by omega)
    rw [if_neg (by omega)] at hlow hhigh
    have hfull : (swapEnds bytes i).length = 32 := (length_swapEnds i).trans hlength
    rw [swapEnds, List.getElem?_set, List.getElem?_set, List.length_set, hfull, List.getD_eq_getElem?_getD,
      List.getD_eq_getElem?_getD, hlow, hhigh]
    by_cases hlast : 31 - i = j
    · subst hlast
      rw [if_pos rfl, if_pos (by omega), if_pos (by omega), show 31 - (31 - i) = i by omega,
        List.getElem?_eq_getElem (by omega : i < bytes.length)]
      rfl
    · rw [if_neg hlast]
      by_cases hfirst : i = j
      · subst hfirst
        rw [if_pos rfl, if_pos (by omega), if_pos (by omega), List.getElem?_eq_getElem (by omega : 31 - i < bytes.length)]
        rfl
      · rw [if_neg hfirst, ih (by omega) hj]
        simp only [show j < i + 1 ∨ 31 - (i + 1) < j ↔ j < i ∨ 31 - i < j by omega]

/-- Sixteen swaps turn 32 bytes round. -/
theorem swapEnds_eq_reverse (hlength : bytes.length = 32) : swapEnds bytes 16 = bytes.reverse := by
  apply List.ext_getElem?
  intro j
  by_cases hj : j < 32
  · rw [getElem?_swapEnds hlength (Nat.le_refl 16) hj, List.getElem?_reverse (by omega), hlength, if_pos (by omega)]
  · rw [List.getElem?_eq_none (by rw [length_swapEnds]; omega), List.getElem?_eq_none (by rw [List.length_reverse]; omega)]

end Swapped

section Written

/-- The two digits of a byte. -/
def hexPair (b : UInt8) : Bytes := [hexChars.getD (b.toNat / 16) 0, hexChars.getD (b.toNat % 16) 0]

theorem hexPair_word (v : UInt64) : [hexChar ((v >>> 4) &&& 0xf), hexChar (v &&& 0xf)] = hexPair (UInt8.ofNat v.toNat) := by
  have hhigh : ((v >>> 4) &&& 0xf).toNat = v.toNat % 256 / 16 := by
    rw [UInt64.toNat_and, UInt64.toNat_shiftRight, Nat.shiftRight_eq_div_pow]
    change v.toNat / 2 ^ 4 &&& (2 ^ 4 - 1) = _
    rw [Nat.and_two_pow_sub_one_eq_mod]
    omega
  have hlow : (v &&& 0xf).toNat = v.toNat % 256 % 16 := by
    rw [UInt64.toNat_and]
    change v.toNat &&& (2 ^ 4 - 1) = _
    rw [Nat.and_two_pow_sub_one_eq_mod]
    omega
  rw [hexChar, hexChar, hhigh, hlow, hexPair, UInt8.toNat_ofNat']

/-- The digits of the bytes so far stand at the end of the text. -/
theorem putHexWord_eq (n : Nat) {b : Nat} (hb : b + n ≤ 32) (v : UInt64) (written : Bytes) :
    putHexWord n b v (List.replicate (64 - 2 * b) 48 ++ written) =
      List.replicate (64 - 2 * (b + n)) 48 ++ ((leEncode n v.toNat).reverse.flatMap hexPair ++ written) := by
  induction n generalizing b v written with
  | zero => rfl
  | succ n ih =>
    have hshift : (v >>> 8).toNat = v.toNat / 256 := by
      rw [UInt64.toNat_shiftRight, Nat.shiftRight_eq_div_pow]
      rfl
    have hzeros : List.replicate (64 - 2 * b) (48 : UInt8) = List.replicate (64 - 2 * (b + 1)) 48 ++ [48, 48] := by
      rw [show 64 - 2 * b = 64 - 2 * (b + 1) + 2 by omega, List.replicate_add]
      rfl
    rw [putHexWord, hzeros, List.append_assoc, overwrite_append (by rw [List.length_replicate]; omega) (by rfl), hexPair_word,
      ih (by omega), hshift, leEncode, List.reverse_cons, List.flatMap_append, List.flatMap_singleton, List.append_assoc,
      show b + 1 + n = b + (n + 1) by omega]

theorem getHexBytes_eq (a : UInt256) : a.getHexBytes = a.getBytesLE.reverse.flatMap hexPair := by
  have h0 := putHexWord_eq 8 (b := 0) (by decide) a.w0 []
  have h1 := putHexWord_eq 8 (b := 8) (by decide) a.w1
  have h2 := putHexWord_eq 8 (b := 16) (by decide) a.w2
  have h3 := putHexWord_eq 8 (b := 24) (by decide) a.w3
  simp only [Nat.reduceMul, Nat.reduceAdd, Nat.reduceSub, List.append_nil] at h0 h1 h2 h3
  have hloop : a.getHexBytes =
      putHexWord 8 24 a.w3 (putHexWord 8 16 a.w2 (putHexWord 8 8 a.w1 (putHexWord 8 0 a.w0 (List.replicate 64 48)))) := by
    rw [getHexBytes, List.foldl_cons, List.foldl_cons, List.foldl_cons, List.foldl_cons, List.foldl_nil]
    rfl
  rw [hloop, h0, h1, h2, h3, getBytesLE, List.replicate_zero, List.nil_append]
  simp only [List.reverse_append, List.flatMap_append, List.append_assoc]

end Written

section Read

theorem nib_hexChars {n : Nat} (hn : n < 16) : nib (hexChars.getD n 0) = UInt8.ofNat n := by
  have hall : ∀ n < 16, nib (hexChars.getD n 0) = UInt8.ofNat n := by decide
  exact hall n hn

theorem nib_lt (c : UInt8) : (nib c).toNat < 16 := by
  unfold nib
  simp only [UInt8.le_iff_toNat_le]
  split
  next hdigit =>
    simp only [UInt8.toNat_sub, UInt8.reduceToNat] at hdigit ⊢
    omega
  next =>
    split
    next hlower =>
      simp only [UInt8.toNat_add, UInt8.toNat_sub, UInt8.reduceToNat] at hlower ⊢
      omega
    next =>
      split
      next hupper =>
        simp only [UInt8.toNat_add, UInt8.toNat_sub, UInt8.reduceToNat] at hupper ⊢
        omega
      next => decide

/-- Two digits make a byte. -/
theorem toNat_pair {hi lo : UInt8} (hhi : hi.toNat < 16) (hlo : lo.toNat < 16) :
    (hi <<< 4 ||| lo).toNat = 16 * hi.toNat + lo.toNat := by
  have hshift : (hi <<< 4).toNat = 2 ^ 4 * hi.toNat := by
    rw [UInt8.toNat_shiftLeft, Nat.shiftLeft_eq]
    change hi.toNat * 2 ^ 4 % 2 ^ 8 = _
    omega
  rw [UInt8.toNat_or, hshift, ← Nat.two_pow_add_eq_or_of_lt hlo]

theorem toNat_pair64 {hi lo : UInt8} (hlo : lo.toNat < 16) :
    ((hi.toUInt64 <<< 4) ||| lo.toUInt64).toNat = 16 * hi.toNat + lo.toNat := by
  have hhi := hi.toNat_lt
  have hshift : (hi.toUInt64 <<< 4).toNat = 2 ^ 4 * hi.toNat := by
    rw [UInt64.toNat_shiftLeft, Nat.shiftLeft_eq, UInt8.toNat_toUInt64]
    change hi.toNat * 2 ^ 4 % 2 ^ 64 = _
    omega
  rw [UInt64.toNat_or, hshift, UInt8.toNat_toUInt64, ← Nat.two_pow_add_eq_or_of_lt hlo]

theorem hexBytes_hexPair (bytes : Bytes) : hexBytes (bytes.flatMap hexPair) = bytes := by
  induction bytes with
  | nil => rfl
  | cons b rest ih =>
    have hb := b.toNat_lt
    have hbyte : nib (hexChars.getD (b.toNat / 16) 0) <<< 4 ||| nib (hexChars.getD (b.toNat % 16) 0) = b := by
      apply UInt8.toNat_inj.mp
      rw [toNat_pair (nib_lt _) (nib_lt _), nib_hexChars (by omega), nib_hexChars (by omega), UInt8.toNat_ofNat',
        UInt8.toNat_ofNat']
      omega
    rw [List.flatMap_cons, hexPair, List.cons_append, List.cons_append, List.nil_append, hexBytes, hbyte, ih]

theorem hexWindow_of_length {hex : Bytes} (hlength : hex.length = 64) : hexWindow hex = hex := by
  rw [hexWindow, hlength]
  simp [hlength]

theorem length_hexWindow (hex : Bytes) : (hexWindow hex).length = 64 := by
  simp only [hexWindow, List.length_append, List.length_replicate, List.length_drop]
  omega

/-- A byte joins a number whose bits at its place are clear. -/
theorem orByte_toNat (r : UInt256) {k : Nat} (hk : k < 32) {byte : UInt64} (hbyte : byte.toNat < 256) :
    (r.orByte k byte).toNat = r.toNat ||| byte.toNat * 2 ^ (8 * (31 - k)) := by
  have hplaced : byte.toNat * 2 ^ (8 * (31 - k)) < 2 ^ 256 := by
    calc byte.toNat * 2 ^ (8 * (31 - k)) < 2 ^ 8 * 2 ^ (8 * (31 - k)) := Nat.mul_lt_mul_of_pos_right hbyte (Nat.two_pow_pos _)
      _ = 2 ^ (8 + 8 * (31 - k)) := (Nat.pow_add 2 _ _).symm
      _ ≤ 2 ^ 256 := Nat.pow_le_pow_right (by decide) (by omega)
  unfold orByte
  refine toNat_ofWords (Nat.or_lt_two_pow r.toNat_lt hplaced) fun i hi => ?_
  rw [Nat.testBit_or, Nat.testBit_mul_two_pow]
  split
  next hword =>
    rw [UInt64.toNat_or, Nat.testBit_or, ← testBit_toNat, testBit_wordShiftLeft _ (by omega) (Nat.mod_lt i (by decide))]
    congr 2
    · rw [decide_eq_decide]
      omega
    · congr 1
      omega
  next hword =>
    rw [← testBit_toNat]
    by_cases hle : 8 * (31 - k) ≤ i
    · have hpast : byte.toNat < 2 ^ (i - 8 * (31 - k)) := by
        have hpow : 2 ^ 8 ≤ 2 ^ (i - 8 * (31 - k)) := Nat.pow_le_pow_right (by decide) (by omega)
        omega
      rw [Nat.testBit_lt_two_pow hpast, Bool.and_false, Bool.or_false]
    · rw [decide_eq_false hle, Bool.false_and, Bool.or_false]

/-- Byte `k` of a text comes from its characters `2 k` and `2 k + 1`. -/
theorem getElem?_hexBytes (h : Bytes) (k : Nat) :
    (hexBytes h)[k]? = if k * 2 + 1 < h.length then some (nib (h.getD (k * 2) 0) <<< 4 ||| nib (h.getD (k * 2 + 1) 0)) else none := by
  induction k generalizing h with
  | zero =>
    cases h with
    | nil => rfl
    | cons hi rest =>
      cases rest with
      | nil => rfl
      | cons lo rest => rfl
  | succ k ih =>
    cases h with
    | nil => rfl
    | cons hi rest =>
      cases rest with
      | nil => rfl
      | cons lo rest =>
        have hskip : ∀ j, (hi :: lo :: rest).getD (j + 2) 0 = rest.getD j 0 := fun _ => rfl
        have hbound : k * 2 + 1 + 2 < rest.length + 1 + 1 ↔ k * 2 + 1 < rest.length := by omega
        rw [hexBytes, List.getElem?_cons_succ, ih, show (k + 1) * 2 = k * 2 + 2 by omega, Nat.add_right_comm, hskip, hskip,
          List.length_cons, List.length_cons]
        simp only [hbound]

theorem length_hexBytes (h : Bytes) : (hexBytes h).length = h.length / 2 := by
  fun_induction hexBytes h with
  | case1 hi lo rest ih =>
    simp only [List.length_cons, ih]
    omega
  | case2 h hshort =>
    rcases h with _ | ⟨hi, _ | ⟨lo, rest⟩⟩
    · rfl
    · simp
    · exact (hshort hi lo rest rfl).elim

theorem hexByte_toNat {h : Bytes} {k : Nat} (hk : k * 2 + 1 < h.length) :
    (hexByte h k).toNat = ((hexBytes h).getD k 0).toNat := by
  rw [List.getD_eq_getElem?_getD, getElem?_hexBytes, if_pos hk, Option.getD_some, toNat_pair (nib_lt _) (nib_lt _), hexByte,
    toNat_pair64 (nib_lt _)]

/-- Each round puts one more byte below those before it. -/
theorem fromHexRounds_toNat {h : Bytes} (hlength : h.length = 64) {k : Nat} (hk : k ≤ 32) :
    (fromHexRounds h k).toNat = leDecode ((hexBytes h).take k).reverse * 2 ^ (8 * (32 - k)) := by
  induction k with
  | zero => rw [List.take_zero, List.reverse_nil, leDecode, Nat.zero_mul]; rfl
  | succ k ih =>
    have hbyte : (hexByte h k).toNat = ((hexBytes h).getD k 0).toNat := hexByte_toNat (by omega)
    have hlt : ((hexBytes h).getD k 0).toNat < 256 := UInt8.toNat_lt _
    have htake : (hexBytes h).take (k + 1) = (hexBytes h).take k ++ [(hexBytes h).getD k 0] := by
      have hin : k < (hexBytes h).length := by
        rw [length_hexBytes]
        omega
      rw [List.take_add_one, List.getElem?_eq_getElem hin, List.getD_eq_getElem _ _ hin]
      rfl
    have hplace : ((hexBytes h).getD k 0).toNat * 2 ^ (8 * (31 - k)) < 2 ^ (8 * (32 - k)) := by
      rw [show 8 * (32 - k) = 8 + 8 * (31 - k) by omega, Nat.pow_add]
      exact Nat.mul_lt_mul_of_pos_right hlt (Nat.two_pow_pos _)
    rw [fromHexRounds, orByte_toNat _ (by omega) (by omega), hbyte, ih (by omega), htake, List.reverse_append,
      List.reverse_singleton, List.singleton_append, leDecode, Nat.mul_comm (leDecode _), ← Nat.two_pow_add_eq_or_of_lt hplace,
      show 32 - (k + 1) = 31 - k by omega, show 8 * (32 - k) = 8 + 8 * (31 - k) by omega, Nat.pow_add]
    ring

theorem length_hexBytes_hexWindow (hex : Bytes) : (hexBytes (hexWindow hex)).length = 32 := by
  rw [length_hexBytes, length_hexWindow]

/-- `fromHexReversed` with the loop that turns the bytes round. -/
theorem fromHexReversed_eq_swapEnds (hex : Bytes) :
    fromHexReversed hex = setBytesLE (swapEnds (hexBytes (hexWindow hex)) 16) := by
  rw [swapEnds_eq_reverse (length_hexBytes_hexWindow hex), fromHexReversed]

theorem fromHex_eq_fromHexReversed (s : Bytes) : fromHex s = fromHexReversed s := by
  have hbytes := length_hexBytes_hexWindow s
  apply toNat_injective
  rw [fromHex, fromHexRounds_toNat (length_hexWindow s) (Nat.le_refl 32), fromHexReversed, toNat_setBytesLE (by rw [List.length_reverse, hbytes]),
    List.take_of_length_le (by omega), Nat.sub_self, Nat.mul_zero, Nat.pow_zero, Nat.mul_one]

theorem fromHexReversed_getHexBytes (x : UInt256) : fromHexReversed x.getHexBytes = x := by
  have hlength : x.getHexBytes.length = 64 := by
    simp [getHexBytes_eq, List.length_flatMap, hexPair]
  rw [fromHexReversed, hexWindow_of_length hlength, getHexBytes_eq, hexBytes_hexPair, List.reverse_reverse, setBytesLE_getBytesLE]

end Read

/-- A number is read back from its text by both functions, and they read every text alike. -/
theorem hex_roundTrip (x : UInt256) :
    fromHex x.getHexBytes = x ∧ fromHexReversed x.getHexBytes = x ∧ ∀ s : Bytes, fromHex s = fromHexReversed s := by
  refine ⟨?_, fromHexReversed_getHexBytes x, fromHex_eq_fromHexReversed⟩
  rw [fromHex_eq_fromHexReversed, fromHexReversed_getHexBytes]

end UInt256

end cdx
