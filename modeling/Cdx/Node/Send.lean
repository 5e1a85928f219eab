import Cdx.Crypto.Hex
import Cdx.Node.Node
import Cdx.Transaction.Amount
import Cdx.Wallet.Payment

namespace cdx

open Std (ExtTreeMap)

/-- The two hex digits of a byte. -/
def hexDigits (b : UInt8) : List Char := [Nat.digitChar (b.toNat / 16), Nat.digitChar (b.toNat % 16)]

/-- The hex digits of a number, most significant first. -/
def UInt256.getHex (a : UInt256) : String := String.ofList (a.getBytesLE.reverse.flatMap hexDigits)

/-- What `sendtoaddress` answers. -/
inductive SendReply where
  | error (message : String)
  | txid (id : UInt256)

def SendReply.text : SendReply → String
  | .error message => "\"error: " ++ message ++ "\""
  | .txid id => "\"" ++ id.getHex ++ "\""

section Send

variable [Crypto] [Secp256k1] [Cipher] [Sorting]

end Send

section

attribute [local instance] trustingCrypto flatCurve markedCipher mergeSorting

end

end cdx
