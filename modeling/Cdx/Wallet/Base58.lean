import Cdx.Wallet.Address

namespace cdx

open codec

section Division

/-- One division of `EncodeBase58`: the big-endian quotient by 58 and the remainder, with
    the remainder of the digits before. -/
def divMod58 : Nat → Bytes → Bytes × Nat
  | rem, [] => ([], rem)
  | rem, b :: rest =>
    let acc := rem * 256 + b.toNat
    let (quotient, rem) := divMod58 (acc % 58) rest
    (UInt8.ofNat (acc / 58) :: quotient, rem)

/-- The number that bytes write, most significant byte first. -/
def beDecode (bytes : Bytes) : Nat := leDecode bytes.reverse

theorem beDecode_cons (b : UInt8) (rest : Bytes) :
    beDecode (b :: rest) = b.toNat * 256 ^ rest.length + beDecode rest := by
  rw [beDecode, List.reverse_cons, leDecode_append, List.length_reverse, beDecode, leDecode, leDecode, Nat.mul_zero,
    Nat.add_zero, Nat.mul_comm, Nat.add_comm]

theorem length_divMod58 (rem : Nat) (buf : Bytes) : (divMod58 rem buf).1.length = buf.length := by
  induction buf generalizing rem with
  | nil => rfl
  | cons b rest ih => simp [divMod58, ih]

/-- The division is exact. -/
theorem divMod58_spec {rem : Nat} (hrem : rem < 58) (buf : Bytes) :
    58 * beDecode (divMod58 rem buf).1 + (divMod58 rem buf).2 = rem * 256 ^ buf.length + beDecode buf ∧
      (divMod58 rem buf).2 < 58 := by
  induction buf generalizing rem with
  | nil => simp [divMod58, beDecode, leDecode, hrem]
  | cons b rest ih =>
    have hb := b.toNat_lt
    obtain ⟨hvalue, hlt⟩ := ih (Nat.mod_lt (rem * 256 + b.toNat) (by decide : 0 < 58))
    refine ⟨?_, hlt⟩
    have hdigit : (UInt8.ofNat ((rem * 256 + b.toNat) / 58)).toNat = (rem * 256 + b.toNat) / 58 := by
      rw [UInt8.toNat_ofNat']
      omega
    have hsplit := Nat.div_add_mod (rem * 256 + b.toNat) 58
    simp only [divMod58]
    rw [beDecode_cons, beDecode_cons, hdigit, length_divMod58, List.length_cons, Nat.pow_succ]
    generalize (rem * 256 + b.toNat) / 58 = quotient at *
    generalize (rem * 256 + b.toNat) % 58 = remainder at *
    calc 58 * (quotient * 256 ^ rest.length + beDecode (divMod58 remainder rest).1) + (divMod58 remainder rest).2
        = 58 * quotient * 256 ^ rest.length +
            (58 * beDecode (divMod58 remainder rest).1 + (divMod58 remainder rest).2) := by ring
      _ = (58 * quotient + remainder) * 256 ^ rest.length + beDecode rest := by rw [hvalue]; ring
      _ = rem * (256 ^ rest.length * 256) + (b.toNat * 256 ^ rest.length + beDecode rest) := by rw [hsplit]; ring

theorem beDecode_dropWhile (bytes : Bytes) : beDecode (bytes.dropWhile (· == 0)) = beDecode bytes := by
  induction bytes with
  | nil => rfl
  | cons b rest ih =>
    rw [List.dropWhile_cons]
    split
    next hzero =>
      rw [ih, beDecode_cons, eq_of_beq hzero]
      simp
    · rfl

theorem dropWhile_zero_eq_nil_iff (bytes : Bytes) : bytes.dropWhile (· == 0) = [] ↔ beDecode bytes = 0 := by
  induction bytes with
  | nil => exact iff_of_true rfl rfl
  | cons b rest ih =>
    rw [List.dropWhile_cons, beDecode_cons]
    by_cases hzero : b = 0
    · rw [if_pos (beq_iff_eq.mpr hzero), ih, hzero]
      simp
    · have hb : b.toNat ≠ 0 := fun h => hzero (UInt8.toNat_inj.mp h)
      have hpow : 0 < 256 ^ rest.length := Nat.pos_of_ne_zero (by simp)
      rw [if_neg (by simpa using hzero)]
      refine iff_of_false (List.cons_ne_nil _ _) ?_
      have hpositive : 0 < b.toNat * 256 ^ rest.length := Nat.mul_pos (Nat.pos_of_ne_zero hb) hpow
      omega

/-- The rest of the number after its last digit. -/
theorem beDecode_divMod58 (buf : Bytes) :
    beDecode ((divMod58 0 buf).1.dropWhile (· == 0)) = beDecode buf / 58 ∧ (divMod58 0 buf).2 = beDecode buf % 58 := by
  obtain ⟨hvalue, hlt⟩ := divMod58_spec (by decide : 0 < 58) buf
  rw [beDecode_dropWhile]
  omega

theorem divMod58_shrinks (b : UInt8) (rest : Bytes) :
    beDecode ((divMod58 0 (b :: rest)).1.dropWhile (· == 0)) + ((divMod58 0 (b :: rest)).1.dropWhile (· == 0)).length <
      beDecode (b :: rest) + (b :: rest).length := by
  have hquotient := (beDecode_divMod58 (b :: rest)).1
  have hlength : ((divMod58 0 (b :: rest)).1.dropWhile (· == 0)).length ≤ (b :: rest).length :=
    (List.dropWhile_suffix _).length_le.trans_eq (length_divMod58 0 _)
  by_cases hpositive : 0 < beDecode (b :: rest)
  · omega
  · have hnil : (divMod58 0 (b :: rest)).1.dropWhile (· == 0) = [] := by
      rw [dropWhile_zero_eq_nil_iff, ← beDecode_dropWhile]
      omega
    rw [hnil, List.length_cons]
    simp [beDecode, leDecode]

end Division

section Encode

/-- The loop of `EncodeBase58`: the digits of the number, least significant first. -/
def base58Digits : Bytes → List Nat
  | [] => []
  | b :: rest => (divMod58 0 (b :: rest)).2 :: base58Digits ((divMod58 0 (b :: rest)).1.dropWhile (· == 0))
termination_by buf => beDecode buf + buf.length
decreasing_by exact divMod58_shrinks b rest

def base58Char (digit : Nat) : UInt8 := BASE58_ALPHABET.getD digit 0

def encodeBase58 (data : Bytes) : Bytes :=
  let zeros := (data.takeWhile (· == 0)).length
  let result := List.replicate zeros (base58Char 0) ++ (base58Digits (data.drop zeros)).reverse.map base58Char
  if result = [] then [base58Char 0] else result

/-- Without zeros in front the loop finds the digits of the number. -/
theorem base58Digits_eq (data : Bytes) : base58Digits (data.dropWhile (· == 0)) = Nat.digits 58 (beDecode data) := by
  induction hn : beDecode data using Nat.strong_induction_on generalizing data with
  | _ n ih =>
    subst hn
    by_cases hzero : beDecode data = 0
    · rw [(dropWhile_zero_eq_nil_iff data).mpr hzero, hzero, base58Digits, Nat.digits_zero]
    · have hne := mt (dropWhile_zero_eq_nil_iff data).mp hzero
      obtain ⟨b, rest, hdata⟩ := List.exists_cons_of_ne_nil hne
      have hvalue : beDecode (b :: rest) = beDecode data := by rw [← hdata, beDecode_dropWhile]
      obtain ⟨hquotient, hdigit⟩ := beDecode_divMod58 (b :: rest)
      rw [beDecode_dropWhile] at hquotient
      rw [hdata, base58Digits, Nat.digits_def' (by decide) (Nat.pos_of_ne_zero hzero), hdigit, hvalue]
      congr 1
      rw [ih _ ?_ _ rfl, hquotient, hvalue]
      rw [hquotient, hvalue]
      omega

theorem drop_zeros (data : Bytes) : data.drop (data.takeWhile (· == 0)).length = data.dropWhile (· == 0) := by
  have hdrop : (data.takeWhile (· == 0) ++ data.dropWhile (· == 0)).drop (data.takeWhile (· == 0)).length =
      data.dropWhile (· == 0) := List.drop_left
  rwa [List.takeWhile_append_dropWhile] at hdrop

theorem takeWhile_zeros (data : Bytes) : data.takeWhile (· == 0) = List.replicate (data.takeWhile (· == 0)).length 0 := by
  rw [List.eq_replicate_iff]
  refine ⟨rfl, fun b hb => ?_⟩
  have hzero : (b == 0) = true := List.mem_takeWhile_imp (p := (· == 0)) hb
  exact eq_of_beq hzero

/-- The text of some bytes: a first character for each zero in front, then the digits. -/
theorem encodeBase58_of_ne_nil {data : Bytes} (hdata : data ≠ []) :
    encodeBase58 data = List.replicate (data.takeWhile (· == 0)).length (base58Char 0) ++
      (Nat.digits 58 (beDecode data)).reverse.map base58Char := by
  unfold encodeBase58
  simp only
  rw [drop_zeros, base58Digits_eq, if_neg]
  intro hnil
  obtain ⟨hzeros, hdigits⟩ := List.append_eq_nil_iff.mp hnil
  rw [List.map_eq_nil_iff, List.reverse_eq_nil_iff, Nat.digits_eq_nil_iff_eq_zero, ← dropWhile_zero_eq_nil_iff] at hdigits
  rw [List.replicate_eq_nil_iff, List.length_eq_zero_iff] at hzeros
  rw [← List.takeWhile_append_dropWhile (p := (· == 0)) (l := data), hzeros, hdigits] at hdata
  exact hdata rfl

end Encode

section Decode

/-- The bytes of a number, least significant first, without zeros at the end. -/
def numberBytes (n : Nat) : Bytes := (Nat.digits 256 n).map UInt8.ofNat

theorem numberBytes_of_pos {n : Nat} (hn : 0 < n) : numberBytes n = UInt8.ofNat (n % 256) :: numberBytes (n / 256) := by
  rw [numberBytes, Nat.digits_def' (by decide) hn, List.map_cons, numberBytes]

theorem pushCarry_eq (carry : Nat) : pushCarry carry = numberBytes carry := by
  induction carry using Nat.strong_induction_on with
  | _ carry ih =>
    rw [pushCarry]
    split
    next hpositive =>
      rw [ih _ (by omega), numberBytes_of_pos hpositive, UInt8.ofNat_mod_size]
    next hzero =>
      rw [Nat.eq_zero_of_not_pos hzero]
      rfl

theorem ofNat_eq_of_mod {m n : Nat} (h : m % 256 = n % 256) : UInt8.ofNat m = UInt8.ofNat n := by
  rw [← UInt8.toNat_inj, UInt8.toNat_ofNat', UInt8.toNat_ofNat']
  exact h

/-- One character of `DecodeBase58` is one step of Horner's rule. -/
theorem mulAdd58_eq (carry n : Nat) : mulAdd58 carry (numberBytes n) = numberBytes (58 * n + carry) := by
  induction n using Nat.strong_induction_on generalizing carry with
  | _ n ih =>
    by_cases hn : 0 < n
    · have hdigit : (UInt8.ofNat (n % 256)).toNat = n % 256 := by
        rw [UInt8.toNat_ofNat']
        omega
      rw [numberBytes_of_pos hn, mulAdd58, hdigit, numberBytes_of_pos (by omega : 0 < 58 * n + carry)]
      rw [ih _ (by omega)]
      congr 1
      · exact ofNat_eq_of_mod (by omega)
      · congr 1
        omega
    · rw [Nat.eq_zero_of_not_pos hn]
      exact (pushCarry_eq carry).trans (by simp)

theorem base58Index_base58Char : ∀ digit < 58, base58Index (base58Char digit) = some digit := by decide

theorem base58Char_eq_first_iff : ∀ digit < 58, BASE58_ALPHABET.head? = some (base58Char digit) ↔ digit = 0 := by decide

theorem decodeBase58Loop_map {digits : List Nat} (hdigits : ∀ d ∈ digits, d < 58) (n : Nat) :
    decodeBase58Loop (digits.map base58Char) (numberBytes n) =
      .ok (numberBytes (digits.foldl (fun n d => 58 * n + d) n)) := by
  induction digits generalizing n with
  | nil => rfl
  | cons d digits ih =>
    obtain ⟨hd, hrest⟩ := List.forall_mem_cons.mp hdigits
    rw [List.map_cons, decodeBase58Loop, base58Index_base58Char d hd]
    simp only
    rw [mulAdd58_eq, ih hrest, List.foldl_cons]

/-- Horner's rule over the digits of a number, zeros before them included. -/
theorem foldl_digits (zeros n : Nat) :
    (List.replicate zeros 0 ++ (Nat.digits 58 n).reverse).foldl (fun n d => 58 * n + d) 0 = n := by
  have hzeros : (List.replicate zeros 0).foldl (fun n d => 58 * n + d) 0 = 0 := by
    induction zeros with
    | zero => rfl
    | succ zeros ih => exact ih
  rw [List.foldl_append, hzeros, List.foldl_reverse]
  conv_rhs => rw [← Nat.ofDigits_digits 58 n, Nat.ofDigits_eq_foldr]
  congr 1
  funext d n
  exact Nat.add_comm _ _

/-- The first characters of a text are those of the zeros before the digits. -/
theorem length_takeWhile_first (zeros n : Nat) :
    (((List.replicate zeros 0 ++ (Nat.digits 58 n).reverse).map base58Char).takeWhile
      fun c => BASE58_ALPHABET.head? = some c).length = zeros := by
  have hhead : ((Nat.digits 58 n).reverse.map base58Char).takeWhile (fun c => BASE58_ALPHABET.head? = some c) = [] := by
    cases hdigits : (Nat.digits 58 n).reverse with
    | nil => rfl
    | cons d rest =>
      have hmem : d ∈ Nat.digits 58 n := by rw [← List.mem_reverse, hdigits]; exact List.mem_cons_self
      have hne : Nat.digits 58 n ≠ [] := List.ne_nil_of_mem hmem
      have hlast : (Nat.digits 58 n).getLast hne = d := by
        rw [List.getLast_eq_iff_getLast?_eq_some, List.getLast?_eq_head?_reverse, hdigits, List.head?_cons]
      have hd : d ≠ 0 := by
        rw [← hlast]
        exact Nat.getLast_digit_ne_zero 58 (Nat.digits_ne_nil_iff_ne_zero.mp hne)
      rw [List.map_cons, List.takeWhile_cons_of_neg]
      simpa [base58Char_eq_first_iff d (Nat.digits_lt_base (by decide) hmem)] using hd
  have hfirst : decide (BASE58_ALPHABET.head? = some (base58Char 0)) = true := by decide
  rw [List.map_append, List.map_replicate, List.takeWhile_append_of_pos, hhead, List.append_nil, List.length_replicate]
  intro c hc
  rw [List.eq_of_mem_replicate hc]
  exact hfirst

/-- Bytes that do not end in a zero are the bytes of their number. -/
theorem numberBytes_leDecode {bytes : Bytes} (hlast : bytes.getLast? ≠ some 0) : numberBytes (leDecode bytes) = bytes := by
  induction bytes with
  | nil => rfl
  | cons b rest ih =>
    have hb := b.toNat_lt
    have hrest : numberBytes (leDecode rest) = rest := by
      cases rest with
      | nil => rfl
      | cons c rest => exact ih (by rwa [List.getLast?_cons_cons] at hlast)
    have hpositive : 0 < b.toNat + 256 * leDecode rest := by
      by_contra hzero
      have hempty : rest = [] := by rw [← hrest, show leDecode rest = 0 by omega]; rfl
      have hb0 : b = 0 := UInt8.toNat_inj.mp (show b.toNat = 0 by omega)
      rw [hempty, hb0] at hlast
      exact hlast rfl
    rw [leDecode, numberBytes_of_pos hpositive]
    congr 1
    · rw [← UInt8.toNat_inj, UInt8.toNat_ofNat']
      omega
    · rw [show (b.toNat + 256 * leDecode rest) / 256 = leDecode rest by omega, hrest]

/-- The bytes that the text of some zeros and a number stands for. -/
def numberData (zeros n : Nat) : Bytes := List.replicate zeros 0 ++ (numberBytes n).reverse

theorem decodeBase58_number (zeros n : Nat) :
    decodeBase58 ((List.replicate zeros 0 ++ (Nat.digits 58 n).reverse).map base58Char) = .ok (numberData zeros n) := by
  have hdigits : ∀ d ∈ List.replicate zeros 0 ++ (Nat.digits 58 n).reverse, d < 58 := by
    intro d hd
    rcases List.mem_append.mp hd with hzeros | hdigits
    · rw [List.eq_of_mem_replicate hzeros]
      decide
    · exact Nat.digits_lt_base (by decide) (List.mem_reverse.mp hdigits)
  have hloop := decodeBase58Loop_map hdigits 0
  rw [foldl_digits, show numberBytes 0 = [] from rfl] at hloop
  rw [decodeBase58, hloop]
  refine congrArg Except.ok ?_
  rw [length_takeWhile_first, numberData]

/-- Bytes are those of the zeros before them and of their number. -/
theorem numberData_beDecode (data : Bytes) : numberData (data.takeWhile (· == 0)).length (beDecode data) = data := by
  have hlast : (data.dropWhile (· == 0)).reverse.getLast? ≠ some 0 := by
    rw [List.getLast?_reverse]
    intro hhead
    have := List.head?_dropWhile_not (· == 0) data
    rw [hhead] at this
    simp at this
  have hnumber : (numberBytes (beDecode data)).reverse = data.dropWhile (· == 0) := by
    rw [← beDecode_dropWhile, beDecode, numberBytes_leDecode hlast, List.reverse_reverse]
  rw [numberData, hnumber, ← takeWhile_zeros, List.takeWhile_append_dropWhile]

/-- Decoding inverts encoding. -/
theorem decodeBase58_encodeBase58 {data : Bytes} (hdata : data ≠ []) : decodeBase58 (encodeBase58 data) = .ok data := by
  rw [encodeBase58_of_ne_nil hdata, ← List.map_replicate, ← List.map_append, decodeBase58_number, numberData_beDecode]

end Decode

section Address

/-- The text of an address, a string: its size is a 64-bit word. -/
@[ext]
structure Address where
  bytes : Bytes
  property : bytes.length < 2 ^ 64
deriving DecidableEq

theorem Address.numbers_injective : Function.Injective fun address : Address => address.bytes.map UInt8.toNat := by
  intro a b hsame
  exact Address.ext (List.map_injective_iff.mpr (fun _ _ => UInt8.toNat_inj.mp) hsame)

/-- Strings are ordered byte by byte. -/
instance : LinearOrder Address := LinearOrder.lift' _ Address.numbers_injective

instance : Std.TransOrd Address := inferInstance

instance : Std.LawfulEqOrd Address := ⟨fun h => compare_eq_iff_eq.mp h⟩

/-- No text is longer than three times its bytes. -/
theorem length_encodeBase58_le {data : Bytes} (hdata : data ≠ []) : (encodeBase58 data).length ≤ 3 * data.length := by
  have hzeros : (data.takeWhile (· == 0)).length ≤ data.length := (List.takeWhile_prefix _).length_le
  have hdigits : (Nat.digits 58 (beDecode data)).length ≤ 2 * data.length := by
    rw [Nat.digits_length_le_iff (by decide)]
    calc beDecode data < 256 ^ data.length := by
          have hlt := leDecode_lt data.reverse
          rwa [List.length_reverse] at hlt
      _ ≤ (58 ^ 2) ^ data.length := Nat.pow_le_pow_left (by decide) _
      _ = 58 ^ (2 * data.length) := (Nat.pow_mul ..).symm
  rw [encodeBase58_of_ne_nil hdata, List.length_append, List.length_replicate, List.length_map, List.length_reverse]
  omega

variable [Crypto]

def encodeBase58Check (data : Bytes) : Bytes :=
  encodeBase58 (data ++ (Crypto.sha256 (Crypto.sha256 data)).take 4)

theorem length_check (data : Bytes) : ((Crypto.sha256 (Crypto.sha256 data)).take 4).length = 4 := by
  rw [List.length_take, Crypto.sha256_length]
  rfl

theorem checked_ne_nil (data : Bytes) : data ++ (Crypto.sha256 (Crypto.sha256 data)).take 4 ≠ [] := by
  intro hnil
  have hlength := length_check data
  rw [(List.append_eq_nil_iff.mp hnil).2] at hlength
  cases hlength

theorem length_encodeBase58Check_le (data : Bytes) : (encodeBase58Check data).length ≤ 3 * (data.length + 4) := by
  have hlength := length_encodeBase58_le (checked_ne_nil data)
  rwa [List.length_append, length_check] at hlength

theorem decodeBase58Check_encodeBase58Check (data : Bytes) : decodeBase58Check (encodeBase58Check data) = .ok data := by
  have hlength : (data ++ (Crypto.sha256 (Crypto.sha256 data)).take 4).length = data.length + 4 := by
    rw [List.length_append, length_check]
  rw [decodeBase58Check, encodeBase58Check, decodeBase58_encodeBase58 (checked_ne_nil data)]
  change (if (data ++ (Crypto.sha256 (Crypto.sha256 data)).take 4).length < 4 then _ else _) = Except.ok data
  rw [hlength, if_neg (by omega)]
  simp only [Nat.add_sub_cancel, List.take_left, List.drop_left, ne_eq, not_true_eq_false, if_false]

theorem length_address (hash160 : Hash160) (versionByte : UInt8) :
    (encodeBase58Check (versionByte :: hash160.val)).length < 2 ^ 64 := by
  have hlength := length_encodeBase58Check_le (versionByte :: hash160.val)
  rw [List.length_cons, hash160.property] at hlength
  omega

/-- `Hash160ToAddress`: the version byte and the hash, with a check. -/
def hash160ToAddress (hash160 : Hash160) (versionByte : UInt8) : Address where
  bytes := encodeBase58Check (versionByte :: hash160.val)
  property := length_address hash160 versionByte

/-- An address names its version byte and its hash. -/
theorem decodeAddress_hash160ToAddress (hash160 : Hash160) (versionByte : UInt8) :
    decodeAddress (hash160ToAddress hash160 versionByte).bytes = some (versionByte, hash160) := by
  rw [decodeAddress, hash160ToAddress, decodeBase58Check_encodeBase58Check]
  simp only
  rw [dif_pos hash160.property]

/-- So addresses of different versions differ. -/
theorem hash160ToAddress_inj {hash160 hash160' : Hash160} {versionByte versionByte' : UInt8}
    (hsame : hash160ToAddress hash160 versionByte = hash160ToAddress hash160' versionByte') :
    versionByte = versionByte' ∧ hash160 = hash160' := by
  have hdecode := decodeAddress_hash160ToAddress hash160 versionByte
  rw [hsame, decodeAddress_hash160ToAddress] at hdecode
  cases hdecode
  exact ⟨rfl, rfl⟩

/-- `WIFToPrivKey`: the version byte and the key of a payload of 34 bytes, whose last byte is not read. -/
def wifToPrivKey (wif : Bytes) : Option (UInt8 × Bytes) :=
  match decodeBase58Check wif with
  | .ok (versionByte :: rest) => if rest.length = 33 then some (versionByte, rest.take 32) else none
  | .ok [] => none
  | .error _ => none

end Address

end cdx
