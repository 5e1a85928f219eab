import Cdx.Crypto.Hash

namespace cdx

open codec

def OP_0 : UInt8 := 0x00
def OP_PUSHDATA1 : UInt8 := 0x4c
def OP_PUSHDATA2 : UInt8 := 0x4d
def OP_PUSHDATA4 : UInt8 := 0x4e
def OP_1NEGATE : UInt8 := 0x4f
def OP_1 : UInt8 := 0x51
def OP_16 : UInt8 := 0x60
def OP_VERIFY : UInt8 := 0x69
def OP_RETURN : UInt8 := 0x6a
def OP_DUP : UInt8 := 0x76
def OP_EQUAL : UInt8 := 0x87
def OP_EQUALVERIFY : UInt8 := 0x88
def OP_HASH160 : UInt8 := 0xa9
def OP_CHECKSIG : UInt8 := 0xac
def OP_CHECKSIGVERIFY : UInt8 := 0xad

def MAX_SCRIPT_SIZE : Nat := 10000

def MAX_SCRIPT_ELEMENT_SIZE : Nat := 520

/-- The `n` bytes of a push and the script after it, when they are all there. -/
def pushData (n : Nat) (p : Bytes) : Option (Bytes × Bytes) :=
  if p.length < n then none else some (p.take n, p.drop n)

/-- The data a push opcode puts on the stack and the script after it; no other
    opcode is a push. -/
def parsePush : Bytes → Option (Bytes × Bytes)
  | [] => none
  | op :: p =>
    if 1 ≤ op ∧ op ≤ 75 then pushData op.toNat p
    else if op = OP_PUSHDATA1 then
      if p.length < 1 then none else pushData (leDecode (p.take 1)) (p.drop 1)
    else if op = OP_PUSHDATA2 then
      if p.length < 2 then none else pushData (leDecode (p.take 2)) (p.drop 2)
    else if op = OP_PUSHDATA4 then
      if p.length < 4 then none else pushData (leDecode (p.take 4)) (p.drop 4)
    else none

/-- A stack entry counts as false when it is empty or the single byte zero. -/
def isFalse (v : Bytes) : Bool := v.isEmpty || v == [0]

def ofBool (b : Bool) : Bytes := if b then [1] else []

variable [Crypto]

/-- One opcode that is not a push. The head of the list is the top of the stack. -/
def evalOp (hash32 : Option Bytes) (op : UInt8) (stack : List Bytes) : Except String (List Bytes) :=
  if op = OP_DUP then
    match stack with
    | [] => .error "OP_DUP: empty stack"
    | v :: rest => .ok (v :: v :: rest)
  else if op = OP_EQUAL ∨ op = OP_EQUALVERIFY then
    match stack with
    | a :: b :: rest =>
      if op = OP_EQUALVERIFY then
        if a = b then .ok rest else .error "OP_EQUALVERIFY failed"
      else .ok (ofBool (a == b) :: rest)
    | _ => .error "OP_EQUAL: stack underflow"
  else if op = OP_VERIFY then
    match stack with
    | [] => .error "OP_VERIFY: empty stack"
    | v :: rest => if isFalse v then .error "OP_VERIFY failed" else .ok rest
  else if op = OP_HASH160 then
    match stack with
    | [] => .error "OP_HASH160: empty stack"
    | v :: rest => .ok (Crypto.hash160 v :: rest)
  else if op = OP_CHECKSIG ∨ op = OP_CHECKSIGVERIFY then
    match stack with
    | pubkey :: sig :: rest =>
      match hash32 with
      | none => .error "no hash for CHECKSIG"
      | some digest =>
        let ok := Crypto.verifySignature digest sig pubkey
        if op = OP_CHECKSIGVERIFY then
          if ok then .ok rest else .error "OP_CHECKSIGVERIFY failed"
        else .ok (ofBool ok :: rest)
    | _ => .error "OP_CHECKSIG: stack underflow"
  else if op = OP_RETURN then .error "OP_RETURN"
  else if op = OP_0 then .ok ([] :: stack)
  else if OP_1 ≤ op ∧ op ≤ OP_16 then .ok ([op - OP_1 + 1] :: stack)
  else if op = OP_1NEGATE then .ok ([0x81] :: stack)
  else .error "unsupported opcode"

/-- The interpreter loop over the rest of the script. The first argument is how
    many operations may still run. -/
def evalLoop (hash32 : Option Bytes) : Nat → Bytes → List Bytes → Except String (List Bytes)
  | _, [], stack => .ok stack
  | 0, _ :: _, _ => .error "too many operations"
  | ops + 1, op :: rest, stack =>
    match parsePush (op :: rest) with
    | some (pushed, rest) =>
      if pushed.length > MAX_SCRIPT_ELEMENT_SIZE then .error "push too large"
      else evalLoop hash32 ops rest (pushed :: stack)
    | none =>
      match evalOp hash32 op stack with
      | .ok stack => evalLoop hash32 ops rest stack
      | .error e => .error e

def evalScript (script : Bytes) (hash32 : Option Bytes) (stack : List Bytes) : Except String (List Bytes) :=
  if script.length > MAX_SCRIPT_SIZE then .error "script too large" else evalLoop hash32 201 script stack

/-- The signature script runs first, the output script on the stack it leaves. -/
def verifyScript (scriptSig scriptPubKey : Bytes) (hash32 : Bytes) : Except String Unit := do
  let stack ← evalScript scriptSig (some hash32) []
  let stack ← evalScript scriptPubKey (some hash32) stack
  match stack with
  | [] => .error "empty stack after script"
  | top :: _ => if isFalse top then .error "false stack top" else .ok ()

end cdx
