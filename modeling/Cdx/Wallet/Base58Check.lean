import Cdx.Crypto.Sha256
import Cdx.Wallet.Base58

namespace cdx

open codec

section RoundTrip

variable [Crypto]

/-- `PrivKeyToWIF`: the version byte, the key and the flag of a compressed public key, with a check. -/
def privKeyToWIF (priv : { bytes : Bytes // bytes.length = 32 }) (versionByte : UInt8) : Bytes :=
  encodeBase58Check (versionByte :: (priv.val ++ [0x01]))

/-- Every payload, every address and every exported key is read back from its text. -/
theorem base58Check_roundTrip :
    (∀ data : Bytes, decodeBase58Check (encodeBase58Check data) = .ok data) ∧
    (∀ (hash160 : Hash160) (versionByte : UInt8),
      decodeAddress (hash160ToAddress hash160 versionByte).bytes = some (versionByte, hash160)) ∧
    ∀ (priv : { bytes : Bytes // bytes.length = 32 }) (versionByte : UInt8),
      wifToPrivKey (privKeyToWIF priv versionByte) = some (versionByte, priv.val) := by
  refine ⟨decodeBase58Check_encodeBase58Check, decodeAddress_hash160ToAddress, fun priv versionByte => ?_⟩
  have hlength : (priv.val ++ [(0x01 : UInt8)]).length = 33 := by rw [List.length_append, priv.property]; rfl
  rw [wifToPrivKey, privKeyToWIF, decodeBase58Check_encodeBase58Check]
  simp only
  rw [if_pos hlength, List.take_left' priv.property]

end RoundTrip

section Characters

theorem base58Index_eq_none_iff (c : UInt8) : base58Index c = none ↔ c ≠ 0 ∧ c ∉ BASE58_ALPHABET := by
  rw [base58Index]
  split
  next hzero => simp [hzero]
  next hne => rw [List.idxOf?_eq_none_iff, iff_and_self]; exact fun _ => hne

theorem zero_notMem_alphabet : (0 : UInt8) ∉ BASE58_ALPHABET := by decide

/-- The loop goes through on every text of the alphabet's characters and NULs. -/
theorem decodeBase58Loop_isOk_iff (s b256 : Bytes) :
    (∃ result, decodeBase58Loop s b256 = .ok result) ↔ ∀ c ∈ s, c = 0 ∨ c ∈ BASE58_ALPHABET := by
  induction s generalizing b256 with
  | nil => exact iff_of_true ⟨b256, rfl⟩ (List.forall_mem_nil _)
  | cons c rest ih =>
    rw [decodeBase58Loop, List.forall_mem_cons]
    cases hindex : base58Index c with
    | none =>
      have hc := (base58Index_eq_none_iff c).mp hindex
      simp [hc.1, hc.2]
    | some idx =>
      have hc : c = 0 ∨ c ∈ BASE58_ALPHABET := by
        by_contra hnot
        rw [(base58Index_eq_none_iff c).mpr (not_or.mp hnot)] at hindex
        cases hindex
      exact (ih _).trans (iff_and_self.mpr fun _ => hc)

theorem exists_digits {s : Bytes} (hs : ∀ c ∈ s, c ∈ BASE58_ALPHABET) :
    ∃ digits : List Nat, (∀ d ∈ digits, d < 58) ∧ s = digits.map base58Char := by
  induction s with
  | nil => exact ⟨[], List.forall_mem_nil _, rfl⟩
  | cons c rest ih =>
    obtain ⟨hc, hrest⟩ := List.forall_mem_cons.mp hs
    obtain ⟨digits, hdigits, rfl⟩ := ih hrest
    obtain ⟨d, hd, rfl⟩ := List.getElem_of_mem hc
    refine ⟨d :: digits, List.forall_mem_cons.mpr ⟨hd, hdigits⟩, ?_⟩
    rw [List.map_cons, base58Char, List.getD_eq_getElem _ _ hd]

end Characters

section Canonical

/-- A list of digits is some zeros and the digits of a number. -/
theorem exists_number {digits : List Nat} (hdigits : ∀ d ∈ digits, d < 58) :
    ∃ zeros n, digits = List.replicate zeros 0 ++ (Nat.digits 58 n).reverse := by
  induction digits with
  | nil => exact ⟨0, 0, by simp⟩
  | cons d rest ih =>
    obtain ⟨hd, hrest⟩ := List.forall_mem_cons.mp hdigits
    by_cases hzero : d = 0
    · obtain ⟨zeros, n, hsame⟩ := ih hrest
      exact ⟨zeros + 1, n, by rw [hzero, hsame, List.replicate_succ, List.cons_append]⟩
    · refine ⟨0, Nat.ofDigits 58 (d :: rest).reverse, ?_⟩
      rw [Nat.digits_ofDigits 58 (by decide) _ (fun d hd => hdigits d (List.mem_reverse.mp hd))]
      · simp
      · intro hne
        rw [List.getLast_reverse]
        exact hzero

theorem leDecode_numberBytes (n : Nat) : leDecode (numberBytes n) = n := by
  induction n using Nat.strong_induction_on with
  | _ n ih =>
    by_cases hn : 0 < n
    · rw [numberBytes_of_pos hn, leDecode, ih _ (by omega), UInt8.toNat_ofNat']
      omega
    · rw [Nat.eq_zero_of_not_pos hn]
      rfl

/-- The most significant byte of a number is not zero. -/
theorem head?_numberBytes_reverse (n : Nat) : (numberBytes n).reverse.head? ≠ some 0 := by
  rw [List.head?_reverse, numberBytes, List.getLast?_map]
  intro hzero
  obtain ⟨d, hd, hd0⟩ := Option.map_eq_some_iff.mp hzero
  have hmem := List.mem_of_getLast? hd
  have hne : Nat.digits 256 n ≠ [] := List.ne_nil_of_mem hmem
  have hlt : d < 256 := Nat.digits_lt_base (by decide) hmem
  have hlast := Nat.getLast_digit_ne_zero 256 (Nat.digits_ne_nil_iff_ne_zero.mp hne)
  rw [List.getLast_eq_iff_getLast?_eq_some hne |>.mpr hd] at hlast
  have htoNat := congrArg UInt8.toNat hd0
  rw [UInt8.toNat_ofNat', Nat.mod_eq_of_lt hlt] at htoNat
  exact hlast htoNat

theorem takeWhile_numberData (zeros n : Nat) : ((numberData zeros n).takeWhile (· == 0)).length = zeros := by
  have hhead : (numberBytes n).reverse.takeWhile (· == 0) = [] := by
    cases hbytes : (numberBytes n).reverse with
    | nil => rfl
    | cons b rest =>
      have hb := head?_numberBytes_reverse n
      rw [hbytes, List.head?_cons] at hb
      exact List.takeWhile_cons_of_neg (by simpa using hb)
  rw [numberData, List.takeWhile_append_of_pos (by simp), hhead, List.append_nil, List.length_replicate]

theorem beDecode_numberData (zeros n : Nat) : beDecode (numberData zeros n) = n := by
  induction zeros with
  | zero => rw [numberData, List.replicate_zero, List.nil_append, beDecode, List.reverse_reverse, leDecode_numberBytes]
  | succ zeros ih =>
    rw [numberData, List.replicate_succ, List.cons_append, beDecode_cons]
    rw [numberData] at ih
    simpa using ih

theorem encodeBase58_numberData {zeros n : Nat} (hdata : numberData zeros n ≠ []) :
    encodeBase58 (numberData zeros n) = (List.replicate zeros 0 ++ (Nat.digits 58 n).reverse).map base58Char := by
  rw [encodeBase58_of_ne_nil hdata, takeWhile_numberData, beDecode_numberData, List.map_append, List.map_replicate]

/-- What a text is read as is written back as that text, if all its characters are of the alphabet. -/
theorem encodeBase58_decodeBase58 {s data : Bytes} (hs : s ≠ []) (hchars : ∀ c ∈ s, c ∈ BASE58_ALPHABET)
    (hdecode : decodeBase58 s = .ok data) : encodeBase58 data = s := by
  obtain ⟨digits, hdigits, rfl⟩ := exists_digits hchars
  obtain ⟨zeros, n, rfl⟩ := exists_number hdigits
  rw [decodeBase58_number] at hdecode
  cases hdecode
  refine encodeBase58_numberData fun hnil => hs ?_
  obtain ⟨hzeros, hbytes⟩ := List.append_eq_nil_iff.mp hnil
  rw [List.replicate_eq_nil_iff] at hzeros
  rw [List.reverse_eq_nil_iff] at hbytes
  have hn : n = 0 := by rw [← leDecode_numberBytes n, hbytes]; rfl
  rw [hzeros, hn]
  simp

/-- The text is read as it is written: all its characters are of the alphabet, and what it is read as is
    written back as the text itself. -/
def CanonicalText (s : Bytes) : Prop :=
  ∀ data, decodeBase58 s = .ok data → (∀ c ∈ s, c ∈ BASE58_ALPHABET) ∧ encodeBase58 data = s

/-- No NUL is read as a digit: there is none, or another character of the text is refused. -/
def NoNulDigit (s : Bytes) : Prop := 0 ∈ s → ∃ c ∈ s, c ≠ 0 ∧ c ∉ BASE58_ALPHABET

theorem decodeBase58_isOk_iff (s : Bytes) :
    (∃ data, decodeBase58 s = .ok data) ↔ ∀ c ∈ s, c = 0 ∨ c ∈ BASE58_ALPHABET := by
  rw [← decodeBase58Loop_isOk_iff s [], decodeBase58]
  cases decodeBase58Loop s [] with
  | error message =>
    apply iff_of_false
    · rintro ⟨data, hdata⟩
      cases hdata
    · rintro ⟨b256, hb256⟩
      cases hb256
  | ok b256 => exact iff_of_true ⟨_, rfl⟩ ⟨_, rfl⟩

/-- Without a NUL digit all the characters of an accepted text are of the alphabet. -/
theorem NoNulDigit.mem_alphabet {s data : Bytes} (hs : NoNulDigit s) (hdecode : decodeBase58 s = .ok data) :
    ∀ c ∈ s, c ∈ BASE58_ALPHABET := by
  have hchars := (decodeBase58_isOk_iff s).mp ⟨data, hdecode⟩
  intro c hc
  refine (hchars c hc).resolve_left fun hzero => ?_
  obtain ⟨d, hd, hd0, hdnot⟩ := hs (hzero ▸ hc)
  exact (hchars d hd).elim hd0 hdnot

theorem canonicalText_iff_noNulDigit {s : Bytes} (hs : s ≠ []) : CanonicalText s ↔ NoNulDigit s := by
  constructor
  · intro hcanonical hzero
    by_contra hnone
    have hchars : ∀ c ∈ s, c = 0 ∨ c ∈ BASE58_ALPHABET := by
      intro c hc
      by_contra hnot
      exact hnone ⟨c, hc, not_or.mp hnot⟩
    obtain ⟨data, hdecode⟩ := (decodeBase58_isOk_iff s).mpr hchars
    exact zero_notMem_alphabet ((hcanonical data hdecode).1 0 hzero)
  · intro hnul data hdecode
    have hchars := hnul.mem_alphabet hdecode
    exact ⟨hchars, encodeBase58_decodeBase58 hs hchars hdecode⟩

variable [Crypto]

theorem decodeBase58Check_eq_ok {s payload : Bytes} (hdecode : decodeBase58Check s = .ok payload) :
    decodeBase58 s = .ok (payload ++ (Crypto.sha256 (Crypto.sha256 payload)).take 4) := by
  unfold decodeBase58Check at hdecode
  cases hfull : decodeBase58 s with
  | error message => rw [hfull] at hdecode; cases hdecode
  | ok full =>
    rw [hfull] at hdecode
    simp only [bind, Except.bind] at hdecode
    split at hdecode
    · cases hdecode
    · split at hdecode
      · cases hdecode
      next hcheck =>
        cases hdecode
        rw [not_not.mp hcheck, List.take_append_drop]

theorem decodeAddress_eq_some {address : Bytes} {versionByte : UInt8} {hash160 : Hash160}
    (hdecode : decodeAddress address = some (versionByte, hash160)) :
    decodeBase58Check address = .ok (versionByte :: hash160.val) := by
  unfold decodeAddress at hdecode
  split at hdecode
  next hcheck =>
    split at hdecode
    · cases hdecode
      exact hcheck
    · cases hdecode
  all_goals cases hdecode

theorem ne_nil_of_decodeAddress {s : Bytes} {address : UInt8 × Hash160} (hdecode : decodeAddress s = some address) :
    s ≠ [] := by
  rintro rfl
  have hread := decodeBase58Check_eq_ok (decodeAddress_eq_some hdecode)
  cases hread

/-- A text that is read is read as it is written exactly when no NUL in it stands for a digit, and
    two such texts never name the same address. -/
theorem decodeBase58_canonical :
    (∀ s : Bytes, s ≠ [] → (CanonicalText s ↔ NoNulDigit s)) ∧
    ∀ (s t : Bytes) (address : UInt8 × Hash160), NoNulDigit s → NoNulDigit t →
      decodeAddress s = some address → decodeAddress t = some address → s = t := by
  refine ⟨fun s hs => canonicalText_iff_noNulDigit hs, ?_⟩
  rintro s t ⟨versionByte, hash160⟩ hs ht hdecode hdecode'
  have hread := decodeBase58Check_eq_ok (decodeAddress_eq_some hdecode)
  have hread' := decodeBase58Check_eq_ok (decodeAddress_eq_some hdecode')
  rw [← ((canonicalText_iff_noNulDigit (ne_nil_of_decodeAddress hdecode)).mpr hs _ hread).2]
  exact ((canonicalText_iff_noNulDigit (ne_nil_of_decodeAddress hdecode')).mpr ht _ hread').2

end Canonical

section

attribute [local instance] toolCrypto

theorem decodeBase58_canonical_twentyOne : ascii "21" ≠ [] ∧ CanonicalText (ascii "21") := by
  have hne : ascii "21" ≠ [] := by decide
  exact ⟨hne, (decodeBase58_canonical.1 _ hne).mpr fun hzero => absurd hzero (by decide)⟩

end

/-- The text of one NUL is read as the number 58, as the text "21" is. -/
theorem decodeBase58_nul :
    decodeBase58 [0] = .ok [58] ∧ decodeBase58 (ascii "21") = .ok [58] ∧ ¬∀ s : Bytes, s ≠ [] → CanonicalText s := by
  have hnul : decodeBase58 [0] = .ok [58] := by
    have hcarry : mulAdd58 58 [] = [58] := by simp [mulAdd58, pushCarry]
    rw [decodeBase58, decodeBase58Loop, show base58Index 0 = some 58 from rfl]
    simp only [hcarry]
    rfl
  refine ⟨hnul, ?_, fun hcanonical => ?_⟩
  · have hnumber := decodeBase58_number 0 58
    have hdata : numberData 0 58 = [58] := by simp [numberData, numberBytes]
    have htext : (List.replicate 0 0 ++ (Nat.digits 58 58).reverse).map base58Char = ascii "21" := by
      rw [show Nat.digits 58 58 = [0, 1] by simp]
      rfl
    rwa [hdata, htext] at hnumber
  · exact zero_notMem_alphabet ((hcanonical [0] (List.cons_ne_nil 0 []) [58] hnul).1 0 List.mem_cons_self)

end cdx
