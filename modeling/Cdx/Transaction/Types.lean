import Cdx.Crypto.UInt256

namespace cdx

/-- A reference to an output of an earlier transaction. -/
@[ext]
structure COutPoint where
  hash : UInt256
  n : UInt32
deriving DecidableEq

/-- A script is a byte vector, and the size of a vector is a 64-bit word. -/
abbrev Script := { bytes : Bytes // bytes.length < 2 ^ 64 }

structure CTxIn where
  prevout : COutPoint
  scriptSig : Script
  sequence : UInt32 := 0xffffffff
deriving DecidableEq

structure CTxOut where
  value : Int64
  scriptPubKey : Script
deriving DecidableEq

structure CTransaction where
  version : Int32 := 1
  vin : List CTxIn
  vout : List CTxOut
  lockTime : UInt32 := 0
deriving DecidableEq

structure CBlockHeader where
  version : Int32 := 1
  prevBlockHash : UInt256
  merkleRoot : UInt256
  timestamp : UInt32
  bits : UInt32
  nonce : UInt32
deriving DecidableEq

structure CBlock where
  header : CBlockHeader
  vtx : List CTransaction
deriving DecidableEq

/-- One input, whose outpoint is the null hash with the largest index. -/
def CTransaction.isCoinBase (tx : CTransaction) : Bool :=
  match tx.vin with
  | [i] => i.prevout.hash.isZero && i.prevout.n == 0xffffffff
  | _ => false

namespace COutPoint

/-- `operator<`: the hash first, then the index. -/
def blt (a b : COutPoint) : Bool := if a.hash ≠ b.hash then a.hash < b.hash else a.n < b.n

instance : LT COutPoint := ⟨fun a b => a.blt b = true⟩
instance : LE COutPoint := ⟨fun a b => ¬ b < a⟩
instance (a b : COutPoint) : Decidable (a < b) := inferInstanceAs (Decidable (a.blt b = true))
instance (a b : COutPoint) : Decidable (a ≤ b) := inferInstanceAs (Decidable (¬ b < a))

/-- Hash and index packed into one number, in the order of the map keys. -/
def key (a : COutPoint) : Nat := 2 ^ 32 * a.hash.toNat + a.n.toNat

theorem key_injective : Function.Injective key := by
  intro a b hab
  have ha := a.n.toNat_lt
  have hb := b.n.toNat_lt
  simp only [key] at hab
  ext1
  · apply UInt256.toNat_injective
    omega
  · apply UInt32.toNat_inj.mp
    omega

theorem lt_iff_key_lt {a b : COutPoint} : a < b ↔ a.key < b.key := by
  have ha := a.n.toNat_lt
  have hb := b.n.toNat_lt
  change a.blt b = true ↔ _
  simp only [blt, key, ne_eq]
  split
  next hne =>
    have hnat : a.hash.toNat ≠ b.hash.toNat := fun h => hne (UInt256.toNat_injective h)
    simp only [UInt256.lt_iff_toNat_lt, decide_eq_true_eq]
    omega
  next heq =>
    have hnat : a.hash.toNat = b.hash.toNat := by rw [not_not.mp heq]
    simp only [UInt32.lt_iff_toNat_lt, decide_eq_true_eq]
    omega

theorem le_iff_key_le {a b : COutPoint} : a ≤ b ↔ a.key ≤ b.key := by
  change ¬ b < a ↔ _
  rw [lt_iff_key_lt, not_lt]

/-- The key order of `std::map<COutPoint, …>`. -/
instance : LinearOrder COutPoint where
  le_refl a := le_iff_key_le.mpr (Nat.le_refl _)
  le_trans a b c hab hbc := le_iff_key_le.mpr (Nat.le_trans (le_iff_key_le.mp hab) (le_iff_key_le.mp hbc))
  lt_iff_le_not_ge a b := by
    rw [lt_iff_key_lt, le_iff_key_le, le_iff_key_le]
    omega
  le_antisymm a b hab hba :=
    key_injective (Nat.le_antisymm (le_iff_key_le.mp hab) (le_iff_key_le.mp hba))
  le_total a b := by
    rw [le_iff_key_le, le_iff_key_le]
    exact Nat.le_total _ _
  toDecidableLE := inferInstance
  toDecidableLT := inferInstance
  toDecidableEq := inferInstance

instance : Std.TransOrd COutPoint := inferInstance

instance : Std.LawfulEqOrd COutPoint := ⟨fun h => compare_eq_iff_eq.mp h⟩

end COutPoint

/-- The characters without the zeros at their end. -/
def dropTrailingZeros (chars : List Char) : List Char := (chars.reverse.dropWhile (· == '0')).reverse

/-- The amount in coins: eight decimals, without the zeros at their end. -/
def formatValue (baseUnits : Int) : String :=
  let whole := Nat.toDigits 10 (baseUnits.natAbs / 100000000)
  let frac := Nat.toDigits 10 (baseUnits.natAbs % 100000000)
  let padded := List.replicate (8 - frac.length) '0' ++ frac
  let decimals := if baseUnits.natAbs % 100000000 = 0 then [] else '.' :: dropTrailingZeros padded
  String.ofList ((if baseUnits < 0 then ['-'] else []) ++ (whole ++ decimals))

end cdx
