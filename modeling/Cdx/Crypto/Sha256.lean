import Cdx.Crypto.Hash

namespace cdx

open codec

namespace Sha256

/-- The round constants. -/
def K : List UInt32 := [
  0x428a2f98, 0x71374491, 0xb5c0fbcf, 0xe9b5dba5, 0x3956c25b, 0x59f111f1, 0x923f82a4, 0xab1c5ed5,
  0xd807aa98, 0x12835b01, 0x243185be, 0x550c7dc3, 0x72be5d74, 0x80deb1fe, 0x9bdc06a7, 0xc19bf174,
  0xe49b69c1, 0xefbe4786, 0x0fc19dc6, 0x240ca1cc, 0x2de92c6f, 0x4a7484aa, 0x5cb0a9dc, 0x76f988da,
  0x983e5152, 0xa831c66d, 0xb00327c8, 0xbf597fc7, 0xc6e00bf3, 0xd5a79147, 0x06ca6351, 0x14292967,
  0x27b70a85, 0x2e1b2138, 0x4d2c6dfc, 0x53380d13, 0x650a7354, 0x766a0abb, 0x81c2c92e, 0x92722c85,
  0xa2bfe8a1, 0xa81a664b, 0xc24b8b70, 0xc76c51a3, 0xd192e819, 0xd6990624, 0xf40e3585, 0x106aa070,
  0x19a4c116, 0x1e376c08, 0x2748774c, 0x34b0bcb5, 0x391c0cb3, 0x4ed8aa4a, 0x5b9cca4f, 0x682e6ff3,
  0x748f82ee, 0x78a5636f, 0x84c87814, 0x8cc70208, 0x90befffa, 0xa4506ceb, 0xbef9a3f7, 0xc67178f2]

def rotr32 (x n : UInt32) : UInt32 := (x >>> n) ||| (x <<< (32 - n))

/-- The eight words of the hash state. -/
structure State where
  a : UInt32
  b : UInt32
  c : UInt32
  d : UInt32
  e : UInt32
  f : UInt32
  g : UInt32
  h : UInt32
deriving DecidableEq

def iv : State :=
  ⟨0x6a09e667, 0xbb67ae85, 0x3c6ef372, 0xa54ff53a, 0x510e527f, 0x9b05688c, 0x1f83d9ab, 0x5be0cd19⟩

/-- Big-endian words of a byte string. -/
def words : Bytes → List UInt32
  | b0 :: b1 :: b2 :: b3 :: rest =>
    ((b0.toUInt32 <<< 24) ||| (b1.toUInt32 <<< 16) ||| (b2.toUInt32 <<< 8) ||| b3.toUInt32) :: words rest
  | _ => []

/-- The message schedule, newest word first. -/
def schedule : Nat → List UInt32 → List UInt32
  | 0, w => w
  | n + 1, w =>
    let w15 := w.getD 14 0
    let w2 := w.getD 1 0
    let s0 := rotr32 w15 7 ^^^ rotr32 w15 18 ^^^ (w15 >>> 3)
    let s1 := rotr32 w2 17 ^^^ rotr32 w2 19 ^^^ (w2 >>> 10)
    schedule n ((w.getD 15 0 + s0 + w.getD 6 0 + s1) :: w)

/-- The compression rounds, one constant and one schedule word each. -/
def rounds : List UInt32 → List UInt32 → State → State
  | k :: ks, w :: ws, s =>
    let S1 := rotr32 s.e 6 ^^^ rotr32 s.e 11 ^^^ rotr32 s.e 25
    let ch := (s.e &&& s.f) ^^^ (~~~s.e &&& s.g)
    let t1 := s.h + S1 + ch + k + w
    let S0 := rotr32 s.a 2 ^^^ rotr32 s.a 13 ^^^ rotr32 s.a 22
    let maj := (s.a &&& s.b) ^^^ (s.a &&& s.c) ^^^ (s.b &&& s.c)
    let t2 := S0 + maj
    rounds ks ws ⟨t1 + t2, s.a, s.b, s.c, s.d + t1, s.e, s.f, s.g⟩
  | _, _, s => s

/-- `sha256_compress` on the first 64 bytes of `p`. -/
def compress (s : State) (p : Bytes) : State :=
  let w := (schedule 48 (words (p.take 64)).reverse).reverse
  let r := rounds K w s
  ⟨s.a + r.a, s.b + r.b, s.c + r.c, s.d + r.d, s.e + r.e, s.f + r.f, s.g + r.g, s.h + r.h⟩

/-- `compress` over `n` blocks of 64 bytes. -/
def compressAll : Nat → State → Bytes → State
  | 0, s, _ => s
  | n + 1, s, p => compressAll n (compress s p) (p.drop 64)

/-- A word, most significant byte first. -/
def wordBytes (w : UInt32) : Bytes := [(w >>> 24).toUInt8, (w >>> 16).toUInt8, (w >>> 8).toUInt8, w.toUInt8]

/-- The last one or two blocks: the remaining bytes, a one bit, zeros and the bit length. -/
def lastBlocks (rem : Bytes) (len : Nat) : Bytes :=
  let padlen := if rem.length + 1 ≤ 56 then 64 else 128
  rem ++ 0x80 :: (List.replicate (padlen - 9 - rem.length) 0 ++ (leEncode 8 (len * 8)).reverse)

def digest (s : State) : Bytes :=
  wordBytes s.a ++ wordBytes s.b ++ wordBytes s.c ++ wordBytes s.d ++
    wordBytes s.e ++ wordBytes s.f ++ wordBytes s.g ++ wordBytes s.h

end Sha256

open Sha256

/-- `sha256_full` of the genesis mining tool. -/
def sha256Full (data : Bytes) : Bytes :=
  let full := data.length / 64
  let last := lastBlocks (data.drop (64 * full)) data.length
  digest (compressAll (last.length / 64) (compressAll full iv data) last)

theorem length_sha256Full (data : Bytes) : (sha256Full data).length = 32 := rfl

/-- The padding completes the remaining bytes to whole blocks. -/
theorem length_lastBlocks {rem : Bytes} (hrem : rem.length < 64) (len : Nat) :
    (lastBlocks rem len).length = if rem.length + 1 ≤ 56 then 64 else 128 := by
  unfold lastBlocks
  simp only [List.length_append, List.length_cons, List.length_replicate, List.length_reverse, length_leEncode]
  split <;> omega

/-- The digest of the empty message. -/
example : sha256Full [] = [
    0xe3, 0xb0, 0xc4, 0x42, 0x98, 0xfc, 0x1c, 0x14, 0x9a, 0xfb, 0xf4, 0xc8, 0x99, 0x6f, 0xb9, 0x24,
    0x27, 0xae, 0x41, 0xe4, 0x64, 0x9b, 0x93, 0x4c, 0xa4, 0x95, 0x99, 0x1b, 0x78, 0x52, 0xb8, 0x55] := by
  decide +kernel

/-- SHA-256 as the mining tool computes it. The concrete blocks of this development
    pay to scripts that push `true`, which reach neither `HASH160` nor a signature check. -/
@[reducible]
def toolCrypto : Crypto where
  sha256 := sha256Full
  sha256_length := length_sha256Full
  hash160 _ := List.replicate 20 0
  hash160_length _ := List.length_replicate
  verifySignature _ _ _ := false

/-- SHA-256 with a table of digests that are looked up instead of computed. -/
def tableSha256 (table : List (Bytes × Bytes)) (data : Bytes) : Bytes := (table.lookup data).getD (sha256Full data)

/-- A table whose entries are right gives SHA-256 itself. -/
theorem tableSha256_eq {table : List (Bytes × Bytes)} (htable : ∀ entry ∈ table, sha256Full entry.1 = entry.2) :
    tableSha256 table = sha256Full := by
  funext data
  unfold tableSha256
  induction table with
  | nil => rfl
  | cons entry rest ih =>
    rw [List.forall_mem_cons] at htable
    rw [List.lookup_cons]
    by_cases hdata : data = entry.1
    · subst hdata
      rw [beq_self_eq_true]
      exact htable.1.symm
    · rw [beq_false_of_ne hdata]
      exact ih htable.2

/-- `toolCrypto` over a table of digests. -/
@[reducible]
def tableCrypto (table : List (Bytes × Bytes)) (htable : ∀ entry ∈ table, sha256Full entry.1 = entry.2) : Crypto where
  sha256 := tableSha256 table
  sha256_length data := by
    rw [tableSha256_eq htable]
    exact length_sha256Full data
  hash160 _ := List.replicate 20 0
  hash160_length _ := List.length_replicate
  verifySignature _ _ _ := false

theorem tableCrypto_eq {table : List (Bytes × Bytes)} (htable : ∀ entry ∈ table, sha256Full entry.1 = entry.2) :
    tableCrypto table htable = toolCrypto := by
  unfold tableCrypto toolCrypto
  congr 1
  exact tableSha256_eq htable

section Suffix

/-- The last 31 bytes of the data and a zero byte, in the place of a digest. Chains under this hash can be followed
    without evaluating it: it is below every target of the regression network, and keeps the end of what it hashes. -/
def suffixHash (data : Bytes) : Bytes := (List.replicate 31 0 ++ data).drop data.length ++ [0]

theorem length_suffixHash (data : Bytes) : (suffixHash data).length = 32 := by
  rw [suffixHash, List.length_append, List.length_drop, List.length_append, List.length_replicate, List.length_singleton]
  omega

theorem suffixHash_append (data : Bytes) {last : Bytes} (hlast : last.length = 31) :
    suffixHash (data ++ last) = last ++ [0] := by
  rw [suffixHash, ← List.append_assoc, List.drop_left']
  rw [List.length_append, List.length_append, List.length_replicate, hlast, Nat.add_comm]

@[reducible]
def suffixCrypto : Crypto where
  sha256 := suffixHash
  sha256_length := length_suffixHash
  hash160 _ := List.replicate 20 0
  hash160_length _ := List.length_replicate
  verifySignature _ _ _ := false

attribute [local instance] suffixCrypto

theorem sha256d_suffix (data : Bytes) : sha256d data = UInt256.setBytesLE (suffixHash (suffixHash data)) := rfl

theorem sha256d_suffix_lt (data : Bytes) : (sha256d data).toNat < 256 ^ 31 := by
  rw [sha256d_suffix, UInt256.toNat_setBytesLE (length_suffixHash _), suffixHash, leDecode_append,
    show leDecode [0] = 0 from rfl, Nat.mul_zero, Nat.add_zero]
  refine (leDecode_lt _).trans_eq ?_
  rw [List.length_drop, List.length_append, List.length_replicate, Nat.add_sub_cancel]

/-- Two rounds of the hash keep the last thirty bytes. -/
theorem sha256d_suffix_append (data : Bytes) {last : Bytes} (b : UInt8) (hlast : last.length = 30) :
    sha256d (data ++ b :: last) = UInt256.setBytesLE (last ++ [0, 0]) := by
  have hfirst : suffixHash (data ++ b :: last) = [b] ++ (last ++ [0]) :=
    suffixHash_append data (by rw [List.length_cons, hlast])
  have hsecond : suffixHash ([b] ++ (last ++ [0])) = last ++ [0] ++ [0] :=
    suffixHash_append [b] (by rw [List.length_append, hlast]; rfl)
  rw [sha256d_suffix, hfirst, hsecond, List.append_assoc]
  rfl

/-- Data with one id agree on what stands at the same place among their last thirty bytes. -/
theorem eq_of_sha256d_suffix {before before' field field' after after' : Bytes}
    (hid : sha256d (before ++ (field ++ after)) = sha256d (before' ++ (field' ++ after')))
    (hfield : field.length = field'.length) (hafter : after.length = after'.length)
    (hlast : field.length + after.length ≤ 30) (hbefore : 31 ≤ before.length) (hbefore' : 31 ≤ before'.length) :
    field = field' := by
  have hkept : ∀ {start tail : Bytes}, 31 ≤ start.length → tail.length = field.length + after.length →
      ∃ kept, kept.length = 30 - tail.length ∧ sha256d (start ++ tail) = UInt256.setBytesLE (kept ++ tail ++ [0, 0]) := by
    intro start tail hstart htail
    have hcut : start.length - 31 + tail.length < start.length := by omega
    refine ⟨start.drop (start.length - 31 + tail.length + 1), by rw [List.length_drop]; omega, ?_⟩
    rw [← sha256d_suffix_append (start.take (start.length - 31 + tail.length)) start[start.length - 31 + tail.length]
      (by rw [List.length_append, List.length_drop]; omega), ← List.cons_append, ← List.drop_eq_getElem_cons,
      ← List.append_assoc, List.take_append_drop]
  obtain ⟨kept, hlength, heq⟩ := hkept hbefore (List.length_append : (field ++ after).length = _)
  obtain ⟨kept', hlength', heq'⟩ := hkept hbefore' (by rw [List.length_append, hfield, hafter] :
    (field' ++ after').length = field.length + after.length)
  rw [List.length_append] at hlength hlength'
  rw [heq, heq'] at hid
  have hbytes := congrArg UInt256.getBytesLE hid
  rw [UInt256.getBytesLE_setBytesLE (by simp only [List.length_append, List.length_cons, List.length_nil]; omega),
    UInt256.getBytesLE_setBytesLE (by simp only [List.length_append, List.length_cons, List.length_nil]; omega)] at hbytes
  have htails := (List.append_inj (List.append_inj_left' hbytes rfl) (by omega)).2
  exact (List.append_inj htails hfield).1

end Suffix

end cdx
