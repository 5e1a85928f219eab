import Cdx.Wallet.Base58
import Cdx.Wallet.Signer

namespace cdx

/-- The order of the group of secp256k1. -/
def SECP256K1_ORDER : Nat := 0xFFFFFFFFFFFFFFFFFFFFFFFFFFFFFFFEBAAEDCE6AF48A03BBFD25E8CD0364141

abbrev Bytes32 := { bytes : Bytes // bytes.length = 32 }

/-- The range that `SetPrivKey` checks. -/
def isPrivKey (p : Bytes) : Bool :=
  p.length == 32 && decide (0 < beDecode p) && decide (beDecode p < SECP256K1_ORDER)

/-- A private key: 32 bytes that write a number between nothing and the order. -/
abbrev PrivKey := { bytes : Bytes // isPrivKey bytes = true }

theorem PrivKey.length_eq (k : PrivKey) : k.val.length = 32 := by
  have hkey := k.property
  simp only [isPrivKey, Bool.and_eq_true, beq_iff_eq] at hkey
  exact hkey.1.1

theorem isPrivKey_one : isPrivKey (List.replicate 31 0 ++ [1]) = true := by decide +kernel

/-- The smallest private key. -/
def oneKey : PrivKey := ⟨List.replicate 31 0 ++ [1], isPrivKey_one⟩

/-- A `CKey`, unless it is not valid. -/
abbrev CKey := Option PrivKey

/-- `SetPrivKey` on a new key. -/
def setPrivKey (p : Bytes) : CKey := if hp : isPrivKey p = true then some ⟨p, hp⟩ else none

theorem setPrivKey_val (k : PrivKey) : setPrivKey k.val = some k := dif_pos k.property

theorem length_zeroKey : (List.replicate 32 (0 : UInt8)).length = 32 := List.length_replicate

/-- `GetPrivKey`: a key that is not valid has zeros. -/
def getPrivKey : CKey → Bytes32
  | none => ⟨List.replicate 32 0, length_zeroKey⟩
  | some k => ⟨k.val, k.length_eq⟩

/-- Only a valid key has bytes that are a private key. -/
theorem getPrivKey_eq_iff (key : CKey) (k : PrivKey) : (getPrivKey key).val = k.val ↔ key = some k := by
  cases key with
  | none =>
    constructor
    · intro hzero
      have hkey := k.property
      rw [← hzero] at hkey
      exact absurd hkey (by decide)
    · intro hnone
      cases hnone
  | some k' => exact ⟨fun hsame => congrArg some (Subtype.ext hsame), fun hsame => congrArg Subtype.val (Option.some.inj hsame)⟩

/-- `CKey::Generate` with what the random source returns: it ends where the source fails. -/
def generateKey : Nat → List Bytes32 → Except String PrivKey
  | 0, _ => .error "failed to generate valid private key"
  | _ + 1, [] => .error "RAND_bytes failed"
  | attempts + 1, buf :: draws =>
    match setPrivKey buf.val with
    | some k => .ok k
    | none => generateKey attempts draws

/-- What the wallet takes from the curve. -/
class Secp256k1 where
  getPubKeyCompressed : PrivKey → { bytes : Bytes // bytes.length = 33 }
  sign : PrivKey → Bytes → Option { sig : Bytes // sig.length ≤ 72 }

/-- A `CKeyPair` as the keystore takes it: the key and the address it is stored under. -/
structure KeyPair where
  key : CKey
  address : Address

theorem length_emptyAddress : ([] : Bytes).length < 2 ^ 64 := by decide

def emptyAddress : Address := ⟨[], length_emptyAddress⟩

section Pair

variable [Crypto] [Secp256k1]

/-- The hash of the public key. -/
def PrivKey.hash160 (k : PrivKey) : Hash160 :=
  ⟨Crypto.hash160 (Secp256k1.getPubKeyCompressed k).val, Crypto.hash160_length _⟩

/-- A valid key with its own address. -/
def PrivKey.pair (k : PrivKey) (versionByte : UInt8) : KeyPair where
  key := some k
  address := hash160ToAddress k.hash160 versionByte

/-- `CKeyPair::FromPrivKey`. A key out of range leaves the pair as it was built, without an address. -/
def fromPrivKey (priv : Bytes) (versionByte : UInt8) : KeyPair :=
  match setPrivKey priv with
  | none => ⟨none, emptyAddress⟩
  | some k => k.pair versionByte

/-- `CKeyPair::Generate`. -/
def generatePair (versionByte : UInt8) (draws : List Bytes32) : Except String KeyPair :=
  (generateKey 128 draws).map fun k => k.pair versionByte

theorem fromPrivKey_val (k : PrivKey) (versionByte : UInt8) : fromPrivKey k.val versionByte = k.pair versionByte := by
  rw [fromPrivKey, setPrivKey_val]

/-- An address of a key is not empty, so `ImportKey` takes it. -/
theorem pair_address_ne_nil (k : PrivKey) (versionByte : UInt8) : (k.pair versionByte).address.bytes ≠ [] := by
  intro hnil
  have hdecode := decodeAddress_hash160ToAddress k.hash160 versionByte
  rw [show hash160ToAddress k.hash160 versionByte = (k.pair versionByte).address from rfl, hnil] at hdecode
  cases hdecode

end Pair

end cdx
