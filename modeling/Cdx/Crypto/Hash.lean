import Cdx.Crypto.UInt256
import Cdx.Lib.Codec

namespace cdx

open codec

/-- What the node takes from OpenSSL, together with RIPEMD-160 inside `HASH160`.
    Nothing is assumed of the functions beyond the sizes of the digests. -/
class Crypto where
  sha256 : Bytes → Bytes
  sha256_length : ∀ data, (sha256 data).length = 32
  hash160 : Bytes → Bytes
  hash160_length : ∀ data, (hash160 data).length = 20
  verifySignature : Bytes → Bytes → Bytes → Bool

namespace UInt256

/-- Thirty-two bytes, least significant byte first. -/
def getBytesLE (a : UInt256) : Bytes :=
  leEncode 8 a.w0.toNat ++ (leEncode 8 a.w1.toNat ++ (leEncode 8 a.w2.toNat ++ leEncode 8 a.w3.toNat))

/-- Word `i` collects the bytes `8 i … 8 i + 7`. -/
def setBytesLE (p : Bytes) : UInt256 :=
  ofWords fun i => UInt64.ofNat (leDecode ((p.drop (8 * i)).take 8))

@[simp] theorem length_getBytesLE (a : UInt256) : a.getBytesLE.length = 32 := by
  simp [getBytesLE]

private theorem ofNat_leDecode_word (w : UInt64) : UInt64.ofNat (leDecode (leEncode 8 w.toNat)) = w := by
  rw [leDecode_leEncode_of_lt (by simpa using w.toNat_lt)]
  simp

theorem setBytesLE_getBytesLE (a : UInt256) : setBytesLE a.getBytesLE = a := by
  have hdrop (w : UInt64) (rest : Bytes) (n : Nat) :
      (leEncode 8 w.toNat ++ rest).drop (8 + n) = rest.drop n := by
    rw [← List.drop_drop, List.drop_left' (length_leEncode 8 _)]
  have htake (w : UInt64) (rest : Bytes) : (leEncode 8 w.toNat ++ rest).take 8 = leEncode 8 w.toNat :=
    List.take_left' (length_leEncode 8 _)
  have h0 : (a.getBytesLE.drop (8 * 0)).take 8 = leEncode 8 a.w0.toNat := htake _ _
  have h1 : (a.getBytesLE.drop (8 * 1)).take 8 = leEncode 8 a.w1.toNat := by
    rw [getBytesLE, hdrop _ _ 0, List.drop_zero, htake]
  have h2 : (a.getBytesLE.drop (8 * 2)).take 8 = leEncode 8 a.w2.toNat := by
    rw [getBytesLE, hdrop _ _ 8, hdrop _ _ 0, List.drop_zero, htake]
  have h3 : (a.getBytesLE.drop (8 * 3)).take 8 = leEncode 8 a.w3.toNat := by
    rw [getBytesLE, hdrop _ _ 16, hdrop _ _ 8, hdrop _ _ 0, List.drop_zero,
      List.take_of_length_le (by simp)]
  simp only [setBytesLE, ofWords, h0, h1, h2, h3, ofNat_leDecode_word]

theorem leEncode_word {bytes : Bytes} (hlength : bytes.length = 8) :
    leEncode 8 (UInt64.ofNat (leDecode bytes)).toNat = bytes := by
  have hlt := leDecode_lt bytes
  rw [hlength] at hlt
  have hvalue : (UInt64.ofNat (leDecode bytes)).toNat = leDecode bytes := by
    rw [UInt64.toNat_ofNat']
    exact Nat.mod_eq_of_lt hlt
  rw [hvalue, ← hlength, leEncode_leDecode]

theorem getBytesLE_setBytesLE {p : Bytes} (hlength : p.length = 32) : (setBytesLE p).getBytesLE = p := by
  have hword : ∀ i < 4, leEncode 8 (UInt64.ofNat (leDecode ((p.drop (8 * i)).take 8))).toNat = (p.drop (8 * i)).take 8 := by
    intro i hi
    apply leEncode_word
    rw [List.length_take, List.length_drop]
    omega
  have hsplit : ∀ n, p.drop n = (p.drop n).take 8 ++ p.drop (n + 8) := by
    intro n
    rw [← List.drop_drop, List.take_append_drop]
  have hlast : (p.drop 24).take 8 = p.drop 24 := List.take_of_length_le (by rw [List.length_drop]; omega)
  simp only [getBytesLE, setBytesLE, ofWords]
  rw [hword 0 (by omega), hword 1 (by omega), hword 2 (by omega), hword 3 (by omega)]
  simp only [Nat.mul_zero, Nat.mul_one, Nat.reduceMul]
  rw [hlast, ← hsplit 16, ← hsplit 8, ← hsplit 0, List.drop_zero]

/-- The bytes write the number, least significant byte first. -/
theorem toNat_setBytesLE {p : Bytes} (hlength : p.length = 32) : (setBytesLE p).toNat = leDecode p := by
  have hword : ∀ bytes : Bytes, (UInt64.ofNat (leDecode (bytes.take 8))).toNat = leDecode (bytes.take 8) := by
    intro bytes
    refine UInt64.toNat_ofNat_of_lt' ((leDecode_lt _).trans_le ?_)
    exact Nat.pow_le_pow_right (by decide) (List.length_take_le 8 _)
  have hsplit : ∀ n, n + 8 ≤ 32 → leDecode (p.drop n) = leDecode ((p.drop n).take 8) + 2 ^ 64 * leDecode (p.drop (n + 8)) := by
    intro n hn
    have hfull : ((p.drop n).take 8).length = 8 := by
      rw [List.length_take, List.length_drop]
      omega
    have hdecode := leDecode_append ((p.drop n).take 8) ((p.drop n).drop 8)
    rwa [List.take_append_drop, hfull, List.drop_drop] at hdecode
  have h0 := hsplit 0 (by decide)
  have h1 := hsplit 8 (by decide)
  have h2 := hsplit 16 (by decide)
  have h3 := hsplit 24 (by decide)
  have hnil : leDecode (p.drop 32) = 0 := by rw [List.drop_eq_nil_of_le (Nat.le_of_eq hlength)]; rfl
  simp only [Nat.reduceAdd, List.drop_zero] at h0 h1 h2 h3
  simp only [setBytesLE, ofWords, toNat, hword, Nat.reduceMul, List.drop_zero]
  omega

/-- The value of a hex digit; every other character counts as zero. -/
def nib (c : UInt8) : UInt8 :=
  if 48 ≤ c ∧ c ≤ 57 then c - 48
  else if 97 ≤ c ∧ c ≤ 102 then c - 97 + 10
  else if 65 ≤ c ∧ c ≤ 70 then c - 65 + 10
  else 0

/-- Bytes of a string of hex digit pairs, in the order they are written. -/
def hexBytes : Bytes → Bytes
  | hi :: lo :: rest => (nib hi <<< 4 ||| nib lo) :: hexBytes rest
  | _ => []

/-- The last 64 characters, padded on the left with the digit zero. -/
def hexWindow (hex : Bytes) : Bytes :=
  let h := hex.drop (hex.length - 64)
  List.replicate (64 - h.length) 48 ++ h

def fromHexReversed (hex : Bytes) : UInt256 := setBytesLE (hexBytes (hexWindow hex)).reverse

end UInt256

theorem toUInt8_shiftRight32 (v : UInt32) {k : UInt32} (hk : k.toNat < 32) :
    (v >>> k).toUInt8 = UInt8.ofNat (v.toNat / 2 ^ k.toNat) := by
  apply UInt8.toNat_inj.mp
  rw [UInt32.toNat_toUInt8, UInt32.toNat_shiftRight, Nat.mod_eq_of_lt hk, UInt8.toNat_ofNat', Nat.shiftRight_eq_div_pow]

theorem toUInt8_shiftRight64 (v : UInt64) {k : Nat} (hk : k < 64) :
    (v >>> UInt64.ofNat k).toUInt8 = UInt8.ofNat (v.toNat / 2 ^ k) := by
  have hshift : (UInt64.ofNat k).toNat % 64 = k := by
    rw [UInt64.toNat_ofNat']
    omega
  apply UInt8.toNat_inj.mp
  rw [UInt64.toNat_toUInt8, UInt64.toNat_shiftRight, hshift, UInt8.toNat_ofNat', Nat.shiftRight_eq_div_pow]

/-- The bytes of a word, shifted down one after another. -/
theorem shiftedBytes_eq (v : UInt64) :
    ((List.range 8).map fun i => (v >>> UInt64.ofNat (8 * i)).toUInt8) = leEncode 8 v.toNat := by
  rw [leEncode_eq_map]
  refine List.map_congr_left fun i hi => ?_
  rw [toUInt8_shiftRight64 v (by rw [List.mem_range] at hi; omega), Nat.pow_mul]

/-- The bytes of an ASCII text. -/
def ascii (s : String) : Bytes := s.toList.map fun c => UInt8.ofNat c.toNat

variable [Crypto]

/-- Double SHA-256, read as a little-endian number. -/
def sha256d (data : Bytes) : UInt256 := UInt256.setBytesLE (Crypto.sha256 (Crypto.sha256 data))

end cdx
