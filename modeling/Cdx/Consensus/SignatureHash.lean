import Cdx.Consensus.Validation
import Cdx.Transaction.RoundTrip

namespace cdx

open codec

theorem length_emptyScript : ([] : Bytes).length < 2 ^ 64 := by decide

/-- The script of every input that is not being signed. -/
def emptyScript : Script := ⟨[], length_emptyScript⟩

/-- The byte string that `SignatureHash` hashes. -/
def signaturePreimage (tx : CTransaction) (inputIndex : Nat) (scriptPubKey : Script) : Bytes :=
  serializeTransaction { tx with vin := sighashInputs scriptPubKey inputIndex tx.vin } ++ [0x01, 0x00, 0x00, 0x00]

theorem signatureHash_eq [Crypto] (tx : CTransaction) (inputIndex : Nat) (scriptPubKey : Script) :
    signatureHash tx inputIndex scriptPubKey = sha256d (signaturePreimage tx inputIndex scriptPubKey) := rfl

theorem length_sighashInputs (scriptPubKey : Script) (index : Nat) (vin : List CTxIn) :
    (sighashInputs scriptPubKey index vin).length = vin.length := by
  induction vin generalizing index with
  | nil => cases index <;> rfl
  | cons i rest ih =>
    cases index with
    | zero => simp [sighashInputs]
    | succ index => simp [sighashInputs, ih]

theorem getElem?_sighashInputs (scriptPubKey : Script) (index : Nat) (vin : List CTxIn) (j : Nat) :
    (sighashInputs scriptPubKey index vin)[j]? =
      vin[j]?.map fun i => { i with scriptSig := if j = index then scriptPubKey else emptyScript } := by
  induction vin generalizing index j with
  | nil => cases index <;> rfl
  | cons i rest ih =>
    cases index with
    | zero =>
      cases j with
      | zero => rfl
      | succ j =>
        simp only [sighashInputs, List.getElem?_cons_succ, List.getElem?_map]
        rfl
    | succ index =>
      cases j with
      | zero => rfl
      | succ j =>
        simp only [sighashInputs, List.getElem?_cons_succ, ih, Nat.add_right_cancel_iff]

/-- What the hash commits to of one input. -/
def CTxIn.unsigned (i : CTxIn) : COutPoint × UInt32 := (i.prevout, i.sequence)

/-- Equal inputs to the hash come from inputs that agree but for their scripts. -/
theorem unsigned_of_sighashInputs {s s' : Script} {index index' : Nat} {vin vin' : List CTxIn}
    (hsame : sighashInputs s index vin = sighashInputs s' index' vin') :
    vin.map CTxIn.unsigned = vin'.map CTxIn.unsigned := by
  apply List.ext_getElem?
  intro j
  have hj := congrArg (fun inputs => (inputs[j]?).map CTxIn.unsigned) hsame
  simp only [getElem?_sighashInputs, Option.map_map] at hj
  rw [List.getElem?_map, List.getElem?_map]
  exact hj

/-- The script that is being spent marks its place. -/
theorem index_of_sighashInputs {s s' : Script} {index index' : Nat} {vin vin' : List CTxIn}
    (hsame : sighashInputs s index vin = sighashInputs s' index' vin') (hindex : index < vin.length)
    (hs : s ≠ emptyScript) : index = index' ∧ s = s' := by
  have hj := congrArg (fun inputs => (inputs[index]?).map CTxIn.scriptSig) hsame
  simp only [getElem?_sighashInputs, Option.map_map, List.getElem?_eq_getElem hindex, Option.map_some] at hj
  cases hother : vin'[index]? with
  | none =>
    rw [hother] at hj
    cases hj
  | some other =>
    rw [hother, Option.map_some, Option.some.injEq] at hj
    simp only [Function.comp_apply, if_true] at hj
    by_cases hplace : index = index'
    · rw [if_pos hplace] at hj
      exact ⟨hplace, hj⟩
    · rw [if_neg hplace] at hj
      exact absurd hj hs

theorem sighashInputs_of_unsigned {s : Script} {index : Nat} {vin vin' : List CTxIn}
    (hsame : vin.map CTxIn.unsigned = vin'.map CTxIn.unsigned) :
    sighashInputs s index vin = sighashInputs s index vin' := by
  apply List.ext_getElem?
  intro j
  have hj := congrArg (fun inputs => inputs[j]?) hsame
  simp only [List.getElem?_map] at hj
  rw [getElem?_sighashInputs, getElem?_sighashInputs]
  cases hi : vin[j]? with
  | none =>
    rw [hi, Option.map_none] at hj
    rw [Option.map_eq_none_iff.mp hj.symm]
  | some i =>
    rw [hi, Option.map_some] at hj
    obtain ⟨i', hi', hunsigned⟩ := Option.map_eq_some_iff.mp hj.symm
    obtain ⟨hprevout, hsequence⟩ := Prod.mk.inj hunsigned
    rw [hi', Option.map_some, Option.map_some]
    cases i
    cases i'
    cases hprevout
    cases hsequence
    rfl

end cdx
