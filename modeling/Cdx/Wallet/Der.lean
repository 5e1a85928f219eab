import Cdx.Lib.Der
import Cdx.Lib.Stream
import Cdx.Wallet.Keys

namespace cdx

open codec der stream

/-! The end of `CKey::Sign`: the numbers `r` and `s` are written into the caller's buffer. -/

def SIGNATURE_DER_MAX_SIZE : Nat := 72

/-- `BN_bn2binpad` into 33 bytes, most significant byte first. -/
def bn2binpad (n : Nat) : Bytes := (leEncode 33 n).reverse

/-- What is left from `rstart` on: a zero goes as long as the byte behind it leaves the sign bit clear. -/
def trimZeros : Bytes → Bytes
  | b :: c :: rest => if b = 0 ∧ c &&& 0x80 = 0 then trimZeros (c :: rest) else b :: c :: rest
  | bytes => bytes

/-- The first byte has its top bit set. -/
def highBit (bytes : Bytes) : Bool := bytes.getD 0 0 &&& 0x80 != 0

/-- The buffer of the caller, and how many bytes of it have been written. -/
structure SigBuffer where
  out : Bytes
  pos : Nat

def SigBuffer.put (o : SigBuffer) (bytes : Bytes) : SigBuffer := ⟨overwrite o.out o.pos bytes, o.pos + bytes.length⟩

/-- An INTEGER, with a zero before a first byte that would make it negative. -/
def SigBuffer.putInteger (o : SigBuffer) (b : Bytes) : SigBuffer :=
  let o := o.put [0x02]
  let o := if highBit b then (o.put [UInt8.ofNat (b.length + 1)]).put [0x00] else o.put [UInt8.ofNat b.length]
  o.put b

/-- The buffer and `outlen` after the numbers have been written; there are none where the signature would not fit. -/
def writeSignature (r s : Nat) (out : Bytes) : Option (Bytes × Nat) :=
  let rb := trimZeros (bn2binpad r)
  let sb := trimZeros (bn2binpad s)
  let total := 2 + 2 + rb.length + 2 + sb.length
  let total := if highBit rb then total + 1 else total
  let total := if highBit sb then total + 1 else total
  if total > SIGNATURE_DER_MAX_SIZE then none
  else
    let o := (SigBuffer.mk out 0).put [0x30]
    let o := o.put [UInt8.ofNat (total - 2)]
    let o := o.putInteger rb
    let o := o.putInteger sb
    some (o.out, o.pos)

section Trim

theorem signBit_clear_iff (b : UInt8) : b &&& 0x80 = 0 ↔ b < 0x80 := by
  rw [UInt8.lt_iff_toNat_lt, ← UInt8.toNat_inj, UInt8.toNat_and]
  change b.toNat &&& 2 ^ 7 = 0 ↔ b.toNat < 128
  have hb := b.toNat_lt
  rw [Nat.and_two_pow, Nat.testBit_eq_decide_div_mod_eq]
  by_cases hbit : b.toNat < 128
  · rw [decide_eq_false (by omega)]
    exact iff_of_true (by decide) hbit
  · rw [decide_eq_true (by omega)]
    exact iff_of_false (by decide) hbit

theorem length_trimZeros_le (bytes : Bytes) : (trimZeros bytes).length ≤ bytes.length := by
  induction bytes with
  | nil => rfl
  | cons b bytes ih =>
    cases bytes with
    | nil => rfl
    | cons c rest =>
      rw [trimZeros]
      split
      · exact ih.trans (Nat.le_succ _)
      · exact Nat.le_refl _

theorem value_trimZeros (bytes : Bytes) : value (trimZeros bytes) = value bytes := by
  induction bytes with
  | nil => rfl
  | cons b bytes ih =>
    cases bytes with
    | nil => rfl
    | cons c rest =>
      rw [trimZeros]
      split
      next hzero => rw [ih, value_cons b, hzero.1, UInt8.toNat_zero, Nat.zero_mul, Nat.zero_add]
      · rfl

/-- A number with a clear sign bit is trimmed to its minimal form. -/
theorem minimal_trimZeros {b : UInt8} (hb : b < 0x80) (rest : Bytes) : minimal (trimZeros (b :: rest)) = true := by
  induction rest generalizing b with
  | nil => simpa [trimZeros, minimal] using hb
  | cons c rest ih =>
    rw [trimZeros]
    split
    next hzero => exact ih ((signBit_clear_iff c).mp hzero.2)
    next hkept =>
      rw [signBit_clear_iff, not_and_or] at hkept
      simpa [minimal, hb] using hkept

theorem highBit_of_minimal {bytes : Bytes} (hminimal : minimal bytes = true) : highBit bytes = false := by
  have hhead : bytes.getD 0 0 < 0x80 := by
    rcases bytes with _ | ⟨b, _ | ⟨c, rest⟩⟩
    · decide
    · simpa [minimal] using hminimal
    · simp only [minimal, Bool.and_eq_true, decide_eq_true_eq] at hminimal
      exact hminimal.1
  rw [highBit, (signBit_clear_iff _).mpr hhead]
  rfl

/-- The trimmed bytes of a number below `2^256`. -/
theorem trimmed_spec {n : Nat} (hn : n < SECP256K1_ORDER) :
    minimal (trimZeros (bn2binpad n)) = true ∧ value (trimZeros (bn2binpad n)) = n ∧ (trimZeros (bn2binpad n)).length ≤ 33 := by
  have horder : SECP256K1_ORDER < 256 ^ 32 := by decide
  have hlt : n < 256 ^ 32 := hn.trans horder
  have hvalue : value (bn2binpad n) = n := by
    rw [value, bn2binpad, List.reverse_reverse, leDecode_leEncode_of_lt (hlt.trans (by decide))]
  have hlength : (bn2binpad n).length = 33 := by rw [bn2binpad, List.length_reverse, length_leEncode]
  obtain ⟨b, rest, hbytes⟩ := List.exists_cons_of_ne_nil (List.ne_nil_of_length_pos (by omega : 0 < (bn2binpad n).length))
  -- The number has 32 bytes, so the first of the 33 is zero.
  have hfirst : b = 0 := by
    rw [hbytes, List.length_cons] at hlength
    rw [hbytes, value_cons, Nat.succ.inj hlength] at hvalue
    apply UInt8.toNat_inj.mp
    rw [UInt8.toNat_zero]
    omega
  refine ⟨?_, by rw [value_trimZeros, hvalue], (length_trimZeros_le _).trans_eq hlength⟩
  rw [hbytes, hfirst]
  exact minimal_trimZeros (by decide) rest

end Trim

/-- So much has been written over the start of the buffer. -/
structure SigBuffer.Wrote (o : SigBuffer) (out written : Bytes) : Prop where
  out_eq : o.out = written ++ out.drop written.length
  pos_eq : o.pos = written.length

section Write

variable {o : SigBuffer} {out written : Bytes}

theorem SigBuffer.Wrote.put (hwrote : o.Wrote out written) (bytes : Bytes) : (o.put bytes).Wrote out (written ++ bytes) := by
  obtain ⟨hout, hpos⟩ := hwrote
  constructor
  · rw [SigBuffer.put, hout, hpos, overwrite, List.take_left, ← List.drop_drop, List.drop_left, List.drop_drop, List.length_append,
      List.append_assoc]
  · rw [SigBuffer.put, hpos, List.length_append]

theorem SigBuffer.Wrote.putInteger (hwrote : o.Wrote out written) {contents : Bytes} (hminimal : minimal contents = true) :
    (o.putInteger contents).Wrote out (written ++ integer contents) := by
  have hwritten := ((hwrote.put [0x02]).put [UInt8.ofNat contents.length]).put contents
  rw [List.append_assoc, List.append_assoc] at hwritten
  rw [SigBuffer.putInteger, highBit_of_minimal hminimal]
  exact hwritten

end Write

/-- The signature that is written is the strict DER form of the two numbers: no other bytes are read as them. It fits,
    and `outlen` is what has been written, and what it declares itself. -/
theorem writeSignature_strict {r s : Nat} (hr : r < SECP256K1_ORDER) (hs : s < SECP256K1_ORDER) (out : Bytes) :
    ∃ sig outlen, writeSignature r s out = some (sig ++ out.drop outlen, outlen) ∧
      (∀ bytes, readPair bytes = some (r, s) ↔ bytes = sig) ∧ sig.length ≤ SIGNATURE_DER_MAX_SIZE ∧
      outlen = sig.length ∧ outlen = (sig.getD 1 0).toNat + 2 := by
  obtain ⟨hrmin, hrvalue, hrlength⟩ := trimmed_spec hr
  obtain ⟨hsmin, hsvalue, hslength⟩ := trimmed_spec hs
  unfold writeSignature
  generalize trimZeros (bn2binpad r) = rb at hrmin hrvalue hrlength ⊢
  generalize trimZeros (bn2binpad s) = sb at hsmin hsvalue hslength ⊢
  have hbody : (integer rb ++ integer sb).length = rb.length + sb.length + 4 := by
    simp only [integer, List.length_append, List.length_cons]
    omega
  have htotal : 2 + 2 + rb.length + 2 + sb.length = (integer rb ++ integer sb).length + 2 := by omega
  have hstart : (SigBuffer.mk out 0).Wrote out [] := ⟨rfl, rfl⟩
  have hwrote := ((hstart.put [0x30]).put [UInt8.ofNat (integer rb ++ integer sb).length]).putInteger hrmin
    |>.putInteger hsmin
  rw [List.append_assoc] at hwrote
  obtain ⟨hout, hpos⟩ := hwrote
  refine ⟨pair rb sb, (pair rb sb).length, ?_, ?_, ?_, rfl, ?_⟩
  · simp only [highBit_of_minimal hrmin, highBit_of_minimal hsmin, Bool.false_eq_true, if_false, htotal, Nat.add_sub_cancel]
    rw [if_neg (by rw [SIGNATURE_DER_MAX_SIZE]; omega)]
    exact congrArg some (Prod.ext hout hpos)
  · rw [← hrvalue, ← hsvalue]
    exact readPair_iff hrmin hsmin (by omega)
  · rw [pair, List.length_cons, List.length_cons, SIGNATURE_DER_MAX_SIZE]
    omega
  · have hdeclared : ((pair rb sb).getD 1 0).toNat = _ := toNat_shortLength (by omega : (integer rb ++ integer sb).length < 128)
    rw [hdeclared, pair, List.length_cons, List.length_cons]

/-- The largest `r` needs a zero for its sign, the smallest `s` is one byte. -/
theorem writeSignature_strict_extremes : SECP256K1_ORDER - 1 < SECP256K1_ORDER ∧ 1 < SECP256K1_ORDER ∧
    ∃ sig outlen, writeSignature (SECP256K1_ORDER - 1) 1 (List.replicate 72 0) = some (sig ++ (List.replicate 72 0).drop outlen, outlen) ∧
      readPair sig = some (SECP256K1_ORDER - 1, 1) := by
  have hlarge : SECP256K1_ORDER - 1 < SECP256K1_ORDER := by decide
  have hsmall : 1 < SECP256K1_ORDER := by decide
  obtain ⟨sig, outlen, hwrite, hstrict, -⟩ := writeSignature_strict hlarge hsmall (List.replicate 72 0)
  exact ⟨hlarge, hsmall, sig, outlen, hwrite, (hstrict sig).mpr rfl⟩

end cdx
