import Cdx.Mining.GenesisTool

namespace cdx

open codec stream

section Search

variable [Crypto]

/-- The loop of `MineBlockHeader`: `none` if the fuel runs out, otherwise the nonce it ends with, if any.
    The stop flag is asked once in each round. -/
def mineLoop (stopFlag : Option (Nat → Bool)) (target : UInt256) : Nat → Nat → Bytes → UInt32 → Option (Option UInt32)
  | 0, _, _, _ => none
  | fuel + 1, round, hdr, nonce =>
    if stopFlag.any fun stop => stop round then some none
    else
      let hdr := overwrite hdr 76 (writeU32 nonce)
      if sha256d hdr ≤ target then some (some nonce)
      else if nonce + 1 = 0 then some none
      else mineLoop stopFlag target fuel (round + 1) hdr (nonce + 1)

/-- The answer of `MineBlockHeader` and the header it leaves. -/
def mineBlockHeader (stopFlag : Option (Nat → Bool)) (fuel : Nat) (header : CBlockHeader) (bits : UInt32) :
    Option (Bool × CBlockHeader) :=
  let target := targetFromBits bits
  if target.isZero then some (false, header)
  else
    let header := { header with bits := bits }
    match mineLoop stopFlag target fuel 0 (serializeBlockHeader header) 0 with
    | none => none
    | some none => some (false, header)
    | some (some nonce) => some (true, { header with nonce := nonce })

/-- The header has its proof of work with this nonce. -/
def CBlockHeader.Works (header : CBlockHeader) (nonce : UInt32) : Prop :=
  checkProofOfWork { header with nonce := nonce }.getHash header.bits = true

omit [Crypto] in
/-- The patched buffer is the header with the new nonce. -/
theorem overwrite_header (header : CBlockHeader) (last nonce : UInt32) :
    overwrite (serializeBlockHeader { header with nonce := last }) 76 (writeU32 nonce) =
      serializeBlockHeader { header with nonce := nonce } := by
  have hlength : (writeU32 last).length = (writeU32 nonce).length := by simp [writeU32]
  have hpatched := overwrite_append (length_headerStart header) hlength []
  rw [List.append_nil, List.append_nil] at hpatched
  rw [serializeBlockHeader_eq, serializeBlockHeader_eq]
  exact hpatched

theorem works_iff {header : CBlockHeader} (htarget : (targetFromBits header.bits).isZero = false) (nonce : UInt32) :
    header.Works nonce ↔ sha256d (serializeBlockHeader { header with nonce := nonce }) ≤ targetFromBits header.bits := by
  rw [CBlockHeader.Works, checkProofOfWork]
  simp only [htarget, Bool.false_eq_true, if_false, CBlockHeader.getHash]
  exact decide_eq_true_iff

/-- What the search from some nonce on ends with: the first that works, or none after the last one. -/
structure Searched (header : CBlockHeader) (first : Nat) (result : Option UInt32) : Prop where
  works : ∀ nonce ∈ result, header.Works nonce
  least : ∀ nonce ∈ result, ∀ n : UInt32, first ≤ n.toNat → n < nonce → ¬header.Works n
  complete : result = none → ∀ n : UInt32, first ≤ n.toNat → ¬header.Works n

theorem Searched.found {header : CBlockHeader} {nonce : UInt32} (hworks : header.Works nonce) :
    Searched header nonce.toNat (some nonce) where
  works := by
    rintro _ ⟨⟩
    exact hworks
  least := by
    rintro _ ⟨⟩ n hle hlt
    exact absurd (UInt32.lt_iff_toNat_lt.mp hlt) (Nat.not_lt.mpr hle)
  complete := by rintro ⟨⟩

/-- Past the last nonce there is nothing to find. -/
theorem Searched.exhausted (header : CBlockHeader) : Searched header (2 ^ 32) none where
  works := by rintro _ ⟨⟩
  least := by rintro _ ⟨⟩
  complete _ n hle := absurd n.toNat_lt (Nat.not_lt.mpr hle)

/-- A nonce that does not work may be left out of the search. -/
theorem Searched.step {header : CBlockHeader} {nonce : UInt32} (hfails : ¬header.Works nonce) {result : Option UInt32}
    (hrest : Searched header (nonce.toNat + 1) result) : Searched header nonce.toNat result := by
  have hother : ∀ n : UInt32, header.Works n → nonce.toNat ≤ n.toNat → nonce.toNat + 1 ≤ n.toNat := by
    intro n hworks hle
    have hne : n.toNat ≠ nonce.toNat := fun hsame => hfails (UInt32.toNat_inj.mp hsame ▸ hworks)
    omega
  refine ⟨hrest.works, fun m hm n hle hlt hworks => ?_, fun hnone n hle hworks => ?_⟩
  · exact hrest.least m hm n (hother n hworks hle) hlt hworks
  · exact hrest.complete hnone n (hother n hworks hle) hworks

/-- One round of a loop that is not stopped. -/
theorem mineLoop_succ {stopFlag : Option (Nat → Bool)} (hstop : ∀ stop ∈ stopFlag, ∀ round, stop round = false)
    (header : CBlockHeader) (target : UInt256) (fuel round : Nat) (last nonce : UInt32) :
    mineLoop stopFlag target (fuel + 1) round (serializeBlockHeader { header with nonce := last }) nonce =
      if sha256d (serializeBlockHeader { header with nonce := nonce }) ≤ target then some (some nonce)
      else if nonce + 1 = 0 then some none
      else mineLoop stopFlag target fuel (round + 1) (serializeBlockHeader { header with nonce := nonce }) (nonce + 1) := by
  have hsilent : (stopFlag.any fun stop => stop round) = false := by
    cases stopFlag with
    | none => rfl
    | some stop => exact hstop stop rfl round
  rw [mineLoop, hsilent, if_neg Bool.false_ne_true]
  simp only
  rw [overwrite_header]

/-- With fuel for the nonces that are left the loop ends, and its end does not depend on the fuel. -/
theorem mineLoop_spec {stopFlag : Option (Nat → Bool)} (hstop : ∀ stop ∈ stopFlag, ∀ round, stop round = false)
    {header : CBlockHeader} (htarget : (targetFromBits header.bits).isZero = false) (remaining : Nat) (nonce : UInt32)
    (hremaining : nonce.toNat + (remaining + 1) = 2 ^ 32) :
    ∃ result, Searched header nonce.toNat result ∧ ∀ (fuel round : Nat) (last : UInt32),
      mineLoop stopFlag (targetFromBits header.bits) (fuel + (remaining + 1)) round
        (serializeBlockHeader { header with nonce := last }) nonce = some result := by
  induction remaining generalizing nonce with
  | zero =>
    have hwrap : nonce + 1 = 0 := by
      apply UInt32.toNat_inj.mp
      rw [UInt32.toNat_add, show nonce.toNat = 2 ^ 32 - 1 by omega]
      rfl
    by_cases hworks : header.Works nonce
    · refine ⟨some nonce, .found hworks, fun fuel round last => ?_⟩
      rw [← Nat.add_assoc, mineLoop_succ hstop, if_pos ((works_iff htarget nonce).mp hworks)]
    · refine ⟨none, Searched.step hworks ?_, fun fuel round last => ?_⟩
      · rw [show nonce.toNat + 1 = 2 ^ 32 by omega]
        exact .exhausted header
      · rw [← Nat.add_assoc, mineLoop_succ hstop, if_neg (mt (works_iff htarget nonce).mpr hworks), if_pos hwrap]
  | succ remaining ih =>
    have hnext : (nonce + 1).toNat = nonce.toNat + 1 := by
      rw [UInt32.toNat_add, UInt32.toNat_one]
      omega
    have hnowrap : nonce + 1 ≠ 0 := fun hwrap => by
      rw [hwrap] at hnext
      cases hnext
    by_cases hworks : header.Works nonce
    · refine ⟨some nonce, .found hworks, fun fuel round last => ?_⟩
      rw [← Nat.add_assoc, mineLoop_succ hstop, if_pos ((works_iff htarget nonce).mp hworks)]
    · obtain ⟨result, hsearched, hloop⟩ := ih (nonce + 1) (by omega)
      refine ⟨result, Searched.step hworks (hnext ▸ hsearched), fun fuel round last => ?_⟩
      rw [← Nat.add_assoc, mineLoop_succ hstop, if_neg (mt (works_iff htarget nonce).mpr hworks), if_neg hnowrap]
      exact hloop fuel (round + 1) nonce

/-- The search that is not stopped ends. If it succeeds only the nonce and the bits of the header have
    changed, and the nonce is the least with which the header has its proof of work; if it does not, the
    target is zero or the header has its proof of work with no nonce. -/
theorem mineBlockHeader_search (header : CBlockHeader) (bits : UInt32) {stopFlag : Option (Nat → Bool)}
    (hstop : ∀ stop ∈ stopFlag, ∀ round, stop round = false) :
    ∃ (found : Bool) (mined : CBlockHeader),
      (∀ fuel, 2 ^ 32 ≤ fuel → mineBlockHeader stopFlag fuel header bits = some (found, mined)) ∧
      (found = true → mined = { header with bits := bits, nonce := mined.nonce } ∧
        checkProofOfWork mined.getHash mined.bits = true ∧
        ∀ n < mined.nonce, checkProofOfWork { mined with nonce := n }.getHash mined.bits = false) ∧
      (found = false → (targetFromBits bits).isZero = true ∨
        ∀ n : UInt32, checkProofOfWork { header with bits := bits, nonce := n }.getHash bits = false) := by
  by_cases hzero : (targetFromBits bits).isZero = true
  · refine ⟨false, header, fun fuel _ => ?_, Bool.noConfusion, fun _ => .inl hzero⟩
    rw [mineBlockHeader]
    simp only
    rw [if_pos hzero]
  · have htarget : (targetFromBits { header with bits := bits }.bits).isZero = false := Bool.of_not_eq_true hzero
    obtain ⟨result, hsearched, hloop⟩ := mineLoop_spec hstop htarget (2 ^ 32 - 1) 0 rfl
    have hmine : ∀ fuel, 2 ^ 32 ≤ fuel → mineLoop stopFlag (targetFromBits bits) fuel 0
        (serializeBlockHeader { header with bits := bits }) 0 = some result := by
      intro fuel hfuel
      have hrounds := hloop (fuel - 2 ^ 32) 0 header.nonce
      rwa [show fuel - 2 ^ 32 + (2 ^ 32 - 1 + 1) = fuel by omega] at hrounds
    cases result with
    | none =>
      refine ⟨false, { header with bits := bits }, fun fuel hfuel => ?_, Bool.noConfusion, fun _ => .inr fun n => ?_⟩
      · rw [mineBlockHeader]
        simp only
        rw [if_neg hzero, hmine fuel hfuel]
      · exact Bool.of_not_eq_true (hsearched.complete rfl n (Nat.zero_le _))
    | some nonce =>
      refine ⟨true, { header with bits := bits, nonce := nonce }, fun fuel hfuel => ?_, fun _ => ⟨rfl, ?_, ?_⟩,
        Bool.noConfusion⟩
      · rw [mineBlockHeader]
        simp only
        rw [if_neg hzero, hmine fuel hfuel]
      · exact hsearched.works nonce rfl
      · exact fun n hlt => Bool.of_not_eq_true (hsearched.least nonce rfl n (Nat.zero_le _) hlt)

end Search

attribute [local instance] toolCrypto

theorem mineBlockHeader_search_regtest :
    ∃ (found : Bool) (mined : CBlockHeader),
      (∀ fuel, 2 ^ 32 ≤ fuel → mineBlockHeader (some fun _ => false) fuel (getGenesisBlock regtestParams).header 0x207fffff =
        some (found, mined)) ∧
      (found = true → checkProofOfWork mined.getHash mined.bits = true) := by
  have hstop : ∀ stop ∈ some fun _ : Nat => false, ∀ round, stop round = false := by
    rintro _ ⟨⟩ round
    rfl
  obtain ⟨found, mined, hends, hfound, -⟩ := mineBlockHeader_search (getGenesisBlock regtestParams).header 0x207fffff hstop
  exact ⟨found, mined, hends, fun h => (hfound h).2.1⟩

end cdx
