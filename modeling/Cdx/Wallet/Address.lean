import Cdx.Crypto.Hash
import Cdx.Script.P2PKH

namespace cdx

def BASE58_ALPHABET : Bytes := ascii "123456789ABCDEFGHJKLMNPQRSTUVWXYZabcdefghijkmnopqrstuvwxyz"

/-- The place of a character in the alphabet. `strchr` also finds the terminator after its last character. -/
def base58Index (c : UInt8) : Option Nat := if c = 0 then some BASE58_ALPHABET.length else BASE58_ALPHABET.idxOf? c

/-- The bytes that the carry loop of `DecodeBase58` pushes. -/
def pushCarry (carry : Nat) : Bytes :=
  if 0 < carry then UInt8.ofNat carry :: pushCarry (carry / 256) else []

/-- One character of `DecodeBase58`: the little-endian number times 58, and the carry added. -/
def mulAdd58 : Nat → Bytes → Bytes
  | carry, [] => pushCarry carry
  | carry, b :: rest =>
    let acc := b.toNat * 58 + carry
    UInt8.ofNat acc :: mulAdd58 (acc / 256) rest

/-- The loop of `DecodeBase58` over the characters. -/
def decodeBase58Loop : Bytes → Bytes → Except String Bytes
  | [], b256 => .ok b256
  | c :: rest, b256 =>
    match base58Index c with
    | none => .error "Invalid base58 character"
    | some idx => decodeBase58Loop rest (mulAdd58 idx b256)

def decodeBase58 (s : Bytes) : Except String Bytes := do
  let b256 ← decodeBase58Loop s []
  let zeros := (s.takeWhile fun c => BASE58_ALPHABET.head? = some c).length
  pure (List.replicate zeros 0 ++ b256.reverse)

section Decode

variable [Crypto]

def decodeBase58Check (s : Bytes) : Except String Bytes := do
  let full ← decodeBase58 s
  if full.length < 4 then .error "Base58Check too short"
  else
    let payloadLen := full.length - 4
    let checksum := Crypto.sha256 (Crypto.sha256 (full.take payloadLen))
    if checksum.take 4 ≠ full.drop payloadLen then .error "Base58Check checksum mismatch"
    else .ok (full.take payloadLen)

/-- The version byte and the hash of an address: a payload of 21 bytes. -/
def decodeAddress (address : Bytes) : Option (UInt8 × Hash160) :=
  match decodeBase58Check address with
  | .ok (versionByte :: hash160) =>
    if hlength : hash160.length = 20 then some (versionByte, ⟨hash160, hlength⟩) else none
  | .ok [] => none
  | .error _ => none

end Decode

end cdx
