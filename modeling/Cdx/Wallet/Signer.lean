import Cdx.Consensus.SignatureHash
import Cdx.Crypto.Sha256

namespace cdx

/-- A key of the wallet: how it signs a digest, when it can, and its compressed
    public key. -/
structure CKeyPair where
  sign : Bytes → Option { sig : Bytes // sig.length ≤ 72 }
  pubkey : { bytes : Bytes // bytes.length = 33 }

/-- The script of a signed input: the signature with its hash type, then the key. -/
def CKeyPair.scriptSig (kp : CKeyPair) (sig : { sig : Bytes // sig.length ≤ 72 }) : Script where
  val := UInt8.ofNat (sig.val.length + 1) :: (sig.val ++ 0x01 :: 33 :: kp.pubkey.val)
  property := by
    have hsig := sig.property
    simp [kp.pubkey.property]
    omega

section Sign

variable [Crypto]

/-- `SignInput`: the transaction with the script of one input replaced. -/
def signInput (tx : CTransaction) (inputIndex : Nat) (kp : CKeyPair) (scriptPubKey : Script) :
    Except String CTransaction :=
  if inputIndex ≥ tx.vin.length then .error "input index out of range"
  else
    match kp.sign (signatureHash tx inputIndex scriptPubKey).getBytesLE with
    | none => .error "signing failed"
    | some sig =>
      .ok { tx with vin := tx.vin.modify inputIndex fun i => { i with scriptSig := kp.scriptSig sig } }

/-- Inputs signed one after another, each with a key and a script of its own. A failure
    keeps what has been signed before it. -/
def signInputs (tx : CTransaction) : List (Nat × CKeyPair × Script) → Except String Unit × CTransaction
  | [] => (.ok (), tx)
  | (inputIndex, kp, scriptPubKey) :: rest =>
    match signInput tx inputIndex kp scriptPubKey with
    | .error e => (.error e, tx)
    | .ok tx => signInputs tx rest

/-- The input of the transaction satisfies the script it spends. -/
def InputVerifies (tx : CTransaction) (inputIndex : Nat) (scriptPubKey : Script) : Prop :=
  ∃ i, tx.vin[inputIndex]? = some i ∧
    verifyScript i.scriptSig.val scriptPubKey.val (signatureHash tx inputIndex scriptPubKey).getBytesLE = .ok ()

/-- The two transactions differ in nothing but the scripts of their inputs. -/
def SameUnsigned (tx tx' : CTransaction) : Prop :=
  tx.version = tx'.version ∧ tx.vin.map CTxIn.unsigned = tx'.vin.map CTxIn.unsigned ∧ tx.vout = tx'.vout ∧
    tx.lockTime = tx'.lockTime

omit [Crypto] in
theorem SameUnsigned.signaturePreimage_eq {tx tx' : CTransaction} (hsame : SameUnsigned tx tx') (inputIndex : Nat)
    (scriptPubKey : Script) :
    signaturePreimage tx inputIndex scriptPubKey = signaturePreimage tx' inputIndex scriptPubKey := by
  obtain ⟨hversion, hvin, hvout, hlock⟩ := hsame
  rw [signaturePreimage, signaturePreimage, hversion, sighashInputs_of_unsigned hvin, hvout, hlock]

omit [Crypto] in
/-- The hashed bytes determine everything but the scripts of the inputs. -/
theorem sameUnsigned_of_signaturePreimage {tx tx' : CTransaction} {index index' : Nat} {s s' : Script}
    (htx : tx.Sized) (htx' : tx'.Sized) (hsame : signaturePreimage tx index s = signaturePreimage tx' index' s') :
    SameUnsigned tx tx' ∧ sighashInputs s index tx.vin = sighashInputs s' index' tx'.vin := by
  have hencoded := List.append_cancel_right hsame
  have hcopy := serializeTransaction_inj_of_sized
    (by rw [CTransaction.Sized, length_sighashInputs]; exact htx)
    (by rw [CTransaction.Sized, length_sighashInputs]; exact htx') hencoded
  obtain ⟨hversion, hvin, hvout, hlock⟩ := CTransaction.mk.inj hcopy
  exact ⟨⟨hversion, unsigned_of_sighashInputs hvin, hvout, hlock⟩, hvin⟩

theorem signInput_eq_ok {tx tx' : CTransaction} {inputIndex : Nat} {kp : CKeyPair} {scriptPubKey : Script}
    (hsign : signInput tx inputIndex kp scriptPubKey = .ok tx') :
    SameUnsigned tx tx' ∧ ∀ j ≠ inputIndex, tx'.vin[j]? = tx.vin[j]? := by
  unfold signInput at hsign
  split at hsign
  · cases hsign
  · split at hsign
    · cases hsign
    next sig hsig =>
      cases hsign
      refine ⟨⟨rfl, ?_, rfl, rfl⟩, ?_⟩
      · apply List.ext_getElem?
        intro j
        rw [List.getElem?_map, List.getElem?_map, List.getElem?_modify]
        cases tx.vin[j]? with
        | none => rfl
        | some i => by_cases hj : inputIndex = j <;> simp [hj, CTxIn.unsigned]
      · intro j hj
        simp [Ne.symm hj]

/-- Signing one input leaves the others as valid as they were. -/
theorem signInput_inputVerifies_iff {tx tx' : CTransaction} {inputIndex : Nat} {kp : CKeyPair} {scriptPubKey : Script}
    (hsign : signInput tx inputIndex kp scriptPubKey = .ok tx') {j : Nat} (hj : j ≠ inputIndex) (s : Script) :
    InputVerifies tx' j s ↔ InputVerifies tx j s := by
  obtain ⟨hsame, hothers⟩ := signInput_eq_ok hsign
  unfold InputVerifies
  rw [hothers j hj, signatureHash_eq, signatureHash_eq, hsame.signaturePreimage_eq]

/-- Signing inputs in any order leaves the others as valid as they were. -/
theorem signInputs_inputVerifies_iff (order : List (Nat × CKeyPair × Script)) (tx : CTransaction) {j : Nat}
    (hj : j ∉ order.map Prod.fst) (s : Script) : InputVerifies (signInputs tx order).2 j s ↔ InputVerifies tx j s := by
  induction order generalizing tx with
  | nil => exact Iff.rfl
  | cons entry rest ih =>
    obtain ⟨inputIndex, kp, scriptPubKey⟩ := entry
    rw [List.map_cons, List.mem_cons, not_or] at hj
    unfold signInputs
    cases hsign : signInput tx inputIndex kp scriptPubKey with
    | error e => exact Iff.rfl
    | ok tx' => exact (ih tx' hj.2).trans (signInput_inputVerifies_iff hsign hj.1 s)

/-- A signature commits to the whole transaction: the hashed bytes determine everything
    but the scripts of the inputs, and the input and the script that are signed for; they
    depend on no script of an input, so signing further inputs invalidates none. -/
theorem signaturePreimage_commits {tx tx' : CTransaction} (htx : tx.Sized) (htx' : tx'.Sized) {index : Nat}
    (hindex : index < tx.vin.length) (index' : Nat) (s s' : Script) :
    signatureHash tx index s = sha256d (signaturePreimage tx index s) ∧
    (signaturePreimage tx index s = signaturePreimage tx' index' s' →
      SameUnsigned tx tx' ∧ (s.val ≠ [] → s'.val ≠ [] → index = index' ∧ s = s')) ∧
    (SameUnsigned tx tx' → signaturePreimage tx index s = signaturePreimage tx' index s) ∧
    ∀ (order : List (Nat × CKeyPair × Script)), index ∉ order.map Prod.fst →
      (InputVerifies (signInputs tx order).2 index s ↔ InputVerifies tx index s) := by
  refine ⟨signatureHash_eq tx index s, ?_, fun hsame => hsame.signaturePreimage_eq index s, ?_⟩
  · intro hsame
    obtain ⟨hunsigned, hinputs⟩ := sameUnsigned_of_signaturePreimage htx htx' hsame
    refine ⟨hunsigned, ?_⟩
    intro hs _
    apply index_of_sighashInputs hinputs hindex
    intro hempty
    rw [hempty] at hs
    exact hs rfl
  · intro order horder
    exact signInputs_inputVerifies_iff order tx horder s

end Sign

section

attribute [local instance] toolCrypto

/-- A payment from one output to another, both of which anyone can spend. -/
def openPayment (value : Int64) : CTransaction where
  vin := [{ prevout := ⟨UInt256.ofWord 1, 0⟩, scriptSig := emptyScript }]
  vout := [{ value := value, scriptPubKey := ⟨[OP_1], by decide⟩ }]

theorem signaturePreimage_commits_openPayment : (openPayment 5).Sized ∧ (openPayment 7).Sized ∧
    signaturePreimage (openPayment 5) 0 ⟨[OP_1], by decide⟩ ≠
      signaturePreimage (openPayment 7) 0 ⟨[OP_1], by decide⟩ := by
  have hsized : ∀ value, (openPayment value).Sized := fun value => ⟨by simp [openPayment], by simp [openPayment]⟩
  refine ⟨hsized 5, hsized 7, ?_⟩
  intro hsame
  obtain ⟨⟨-, -, hvout, -⟩, -⟩ := (signaturePreimage_commits (hsized 5) (hsized 7) Nat.zero_lt_one 0 _ _).2.1 hsame
  exact absurd hvout (by decide)

end

end cdx
