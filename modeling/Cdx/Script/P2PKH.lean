import Cdx.Script.Interpreter
import Cdx.Transaction.Types

namespace cdx

/-- The hash of a public key that an output pays to. -/
abbrev Hash160 := { bytes : Bytes // bytes.length = 20 }

def buildP2PKHScript (hash160 : Hash160) : Script where
  val := OP_DUP :: OP_HASH160 :: 0x14 :: (hash160.val ++ [OP_EQUALVERIFY, OP_CHECKSIG])
  property := by simp [hash160.property]

def isP2PKHScript (script : Bytes) : Bool :=
  script.length == 25 && script[0]? == some OP_DUP && script[1]? == some OP_HASH160 && script[2]? == some 0x14 &&
    script[23]? == some OP_EQUALVERIFY && script[24]? == some OP_CHECKSIG

def extractP2PKHHash (script : Bytes) : Option Bytes :=
  if isP2PKHScript script then some ((script.drop 3).take 20) else none

theorem length_buildP2PKHScript (hash160 : Hash160) : (buildP2PKHScript hash160).val.length = 25 := by
  simp [buildP2PKHScript, hash160.property]

/-- The recogniser finds the hash of the built scripts and of nothing else. -/
theorem extractP2PKHHash_eq_some_iff {script : Bytes} (hash160 : Hash160) :
    extractP2PKHHash script = some hash160.val ↔ script = (buildP2PKHScript hash160).val := by
  constructor
  · intro hextract
    unfold extractP2PKHHash at hextract
    split at hextract
    next hkind =>
      simp only [isP2PKHScript, Bool.and_eq_true, beq_iff_eq] at hkind
      obtain ⟨⟨⟨⟨⟨hlength, h0⟩, h1⟩, h2⟩, h23⟩, h24⟩ := hkind
      match script with
      | [] | [_] | [_, _] => cases hlength
      | op0 :: op1 :: op2 :: tail =>
        cases h0
        cases h1
        cases h2
        have hend : tail.drop 20 = [OP_EQUALVERIFY, OP_CHECKSIG] := by
          have hlast : (tail.drop 20).length = 2 := by
            rw [List.length_drop]
            simp only [List.length_cons] at hlength
            omega
          obtain ⟨x, y, hxy⟩ := List.length_eq_two.mp hlast
          have hx : (tail.drop 20)[0]? = some OP_EQUALVERIFY := by rw [List.getElem?_drop]; exact h23
          have hy : (tail.drop 20)[1]? = some OP_CHECKSIG := by rw [List.getElem?_drop]; exact h24
          rw [hxy] at hx hy ⊢
          cases hx
          cases hy
          rfl
        have hmiddle : tail.take 20 = hash160.val := Option.some.inj hextract
        have htail : tail = hash160.val ++ [OP_EQUALVERIFY, OP_CHECKSIG] := by
          rw [← hmiddle, ← hend, List.take_append_drop]
        rw [htail]
        rfl
    · cases hextract
  · intro hscript
    have hkind : isP2PKHScript script = true := by
      rw [hscript]
      simp [isP2PKHScript, buildP2PKHScript, hash160.property]
    rw [extractP2PKHHash, if_pos hkind, hscript, buildP2PKHScript]
    exact congrArg some (List.take_left' hash160.property)

section Eval

variable [Crypto]

/-- One operation of the loop that is not a push. -/
theorem evalLoop_opcode {hash32 : Option Bytes} {op : UInt8} {rest : Bytes} (hop : parsePush (op :: rest) = none)
    (ops : Nat) (stack : List Bytes) :
    evalLoop hash32 (ops + 1) (op :: rest) stack =
      (evalOp hash32 op stack).bind fun stack => evalLoop hash32 ops rest stack := by
  rw [evalLoop, hop]
  cases evalOp hash32 op stack <;> rfl

/-- The push of a key hash. -/
theorem evalLoop_pushHash (hash32 : Option Bytes) (hash160 : Hash160) (ops : Nat) (rest : Bytes) (stack : List Bytes) :
    evalLoop hash32 (ops + 1) (0x14 :: (hash160.val ++ rest)) stack = evalLoop hash32 ops rest (hash160.val :: stack) := by
  have hpush : parsePush (0x14 :: (hash160.val ++ rest)) = some (hash160.val, rest) := by
    have hroom : ¬ (hash160.val ++ rest).length < (0x14 : UInt8).toNat := by
      rw [List.length_append, hash160.property]
      change ¬ 20 + rest.length < 20
      omega
    have hlength : hash160.val.length = (0x14 : UInt8).toNat := hash160.property
    rw [parsePush, if_pos (by decide), pushData, if_neg hroom, List.take_left' hlength, List.drop_left' hlength]
  have hsize : ¬ hash160.val.length > MAX_SCRIPT_ELEMENT_SIZE := by
    rw [hash160.property]
    decide
  rw [evalLoop, hpush]
  simp only [if_neg hsize]

/-- How the script of a key hash ends depends on the two entries on top of the stack. -/
theorem evalScript_p2pkh (hash160 : Hash160) (digest : Bytes) (stack : List Bytes) :
    evalScript (buildP2PKHScript hash160).val (some digest) stack =
      match stack with
      | [] => .error "OP_DUP: empty stack"
      | pubkey :: below =>
        if hash160.val = Crypto.hash160 pubkey then
          match below with
          | [] => .error "OP_CHECKSIG: stack underflow"
          | sig :: rest => .ok (ofBool (Crypto.verifySignature digest sig pubkey) :: rest)
        else .error "OP_EQUALVERIFY failed" := by
  have hsize : ¬ (buildP2PKHScript hash160).val.length > MAX_SCRIPT_SIZE := by
    rw [length_buildP2PKHScript]
    decide
  rw [evalScript, if_neg hsize, buildP2PKHScript]
  cases stack with
  | nil => rfl
  | cons pubkey below =>
    have hdup : evalOp (some digest) OP_DUP (pubkey :: below) = .ok (pubkey :: pubkey :: below) := rfl
    have hhash : evalOp (some digest) OP_HASH160 (pubkey :: pubkey :: below) =
        .ok (Crypto.hash160 pubkey :: pubkey :: below) := rfl
    have hequal : evalOp (some digest) OP_EQUALVERIFY (hash160.val :: Crypto.hash160 pubkey :: pubkey :: below) =
        if hash160.val = Crypto.hash160 pubkey then .ok (pubkey :: below) else .error "OP_EQUALVERIFY failed" := rfl
    rw [evalLoop_opcode rfl, hdup]
    simp only [Except.bind]
    rw [evalLoop_opcode rfl, hhash]
    simp only [Except.bind]
    rw [evalLoop_pushHash, evalLoop_opcode rfl, hequal]
    split
    · simp only [Except.bind]
      cases below <;> rfl
    · rfl

/-- A key hash is paid exactly when the signature script leaves a signature and a key
    on top of the stack, the key has that hash and the signature verifies under it. In
    particular nothing is paid without such a signature. -/
theorem verifyScript_p2pkh_iff (scriptSig : Bytes) (hash160 : Hash160) (digest : Bytes) :
    (verifyScript scriptSig (buildP2PKHScript hash160).val digest = .ok () ↔
      ∃ pubkey sig rest, evalScript scriptSig (some digest) [] = .ok (pubkey :: sig :: rest) ∧
        Crypto.hash160 pubkey = hash160.val ∧ Crypto.verifySignature digest sig pubkey = true) ∧
    (verifyScript scriptSig (buildP2PKHScript hash160).val digest = .ok () →
      ∃ pubkey sig, Crypto.hash160 pubkey = hash160.val ∧ Crypto.verifySignature digest sig pubkey = true) := by
  have hiff : verifyScript scriptSig (buildP2PKHScript hash160).val digest = .ok () ↔
      ∃ pubkey sig rest, evalScript scriptSig (some digest) [] = .ok (pubkey :: sig :: rest) ∧
        Crypto.hash160 pubkey = hash160.val ∧ Crypto.verifySignature digest sig pubkey = true := by
    unfold verifyScript
    cases evalScript scriptSig (some digest) [] with
    | error e => simp [bind, Except.bind]
    | ok stack =>
      simp only [bind, Except.bind, evalScript_p2pkh]
      obtain _ | ⟨pubkey, _ | ⟨sig, rest⟩⟩ := stack
      · simp
      · by_cases hhash : hash160.val = Crypto.hash160 pubkey
        · simp [hhash]
        · simp [hhash]
      · constructor
        · intro hok
          by_cases hhash : hash160.val = Crypto.hash160 pubkey
          · cases hsignature : Crypto.verifySignature digest sig pubkey with
            | true => exact ⟨pubkey, sig, rest, rfl, hhash.symm, hsignature⟩
            | false =>
              simp only [if_pos hhash, hsignature] at hok
              cases hok
          · simp only [if_neg hhash] at hok
            cases hok
        · rintro ⟨pubkey', sig', rest', hstack, hhash, hsignature⟩
          cases hstack
          simp only [if_pos hhash.symm, hsignature]
          rfl
  refine ⟨hiff, ?_⟩
  intro hok
  obtain ⟨pubkey, sig, _, -, hhash, hsignature⟩ := hiff.mp hok
  exact ⟨pubkey, sig, hhash, hsignature⟩

end Eval

end cdx
