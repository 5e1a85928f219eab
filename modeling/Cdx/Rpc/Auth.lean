import Cdx.Crypto.Hash

namespace cdx

/-! Basic authentication of the RPC server: the CLI's encoder, the server's decoder, and `CheckAuth`. -/

def base64Table : Bytes := ascii "ABCDEFGHIJKLMNOPQRSTUVWXYZabcdefghijklmnopqrstuvwxyz0123456789+/"

def base64Char (n : UInt32) : UInt8 := base64Table.getD n.toNat 0

/-- The variables of `Base64Encode`. -/
structure Base64Encoder where
  val : UInt32
  bits : Int
  out : Bytes

/-- The inner loop: the digits that are complete. -/
def Base64Encoder.drain (s : Base64Encoder) : Base64Encoder :=
  if s.bits ≥ 0 then
    drain { s with
      out := s.out ++ [base64Char ((s.val >>> UInt32.ofNat s.bits.toNat) &&& 0x3f)]
      bits := s.bits - 6 }
  else s
termination_by (s.bits + 6).toNat

def Base64Encoder.byte (s : Base64Encoder) (c : UInt8) : Base64Encoder :=
  drain { s with val := (s.val <<< 8) + c.toUInt32, bits := s.bits + 8 }

/-- A last digit of the bits that are left over. -/
def Base64Encoder.finish (s : Base64Encoder) : Bytes :=
  if s.bits > -6 then s.out ++ [base64Char (((s.val <<< 8) >>> UInt32.ofNat (s.bits + 8).toNat) &&& 0x3f)] else s.out

/-- `Base64Encode` of the CLI. -/
def base64Encode (input : Bytes) : Bytes :=
  let out := (input.foldl Base64Encoder.byte { val := 0, bits := -6, out := [] }).finish
  out ++ List.replicate ((4 - out.length % 4) % 4) 61

/-- The entry of the table `val` of the server, if it is not negative. -/
def base64Value (c : UInt8) : Option UInt32 := (base64Table.idxOf? c).map UInt32.ofNat

/-- The variables of the decoder in `CheckAuth`. -/
structure Base64Decoder where
  acc : UInt32
  nbits : Nat
  out : Bytes

def Base64Decoder.digit (s : Base64Decoder) (v : UInt32) : Base64Decoder :=
  let acc := (s.acc <<< 6) ||| v
  let nbits := s.nbits + 6
  if nbits ≥ 8 then
    { acc := acc, nbits := nbits - 8, out := s.out ++ [((acc >>> UInt32.ofNat (nbits - 8)) &&& 0xff).toUInt8] }
  else { acc := acc, nbits := nbits, out := s.out }

/-- The loop over the characters: an equals sign ends it, and characters outside the alphabet are passed over. -/
def Base64Decoder.run (s : Base64Decoder) : Bytes → Bytes
  | [] => s.out
  | c :: rest =>
    if c = 61 then s.out
    else
      match base64Value c with
      | none => s.run rest
      | some v => (s.digit v).run rest

/-- The decoder inside `CheckAuth`. -/
def base64Decode (input : Bytes) : Bytes := Base64Decoder.run { acc := 0, nbits := 0, out := [] } input

/-- Three bytes as four digits of six bits; the last digit of a shorter group is filled up with zeros. -/
def sextets : Bytes → List Nat
  | a :: b :: c :: rest =>
    a.toNat / 4 :: (a.toNat % 4 * 16 + b.toNat / 16) :: (b.toNat % 16 * 4 + c.toNat / 64) :: c.toNat % 64 :: sextets rest
  | [a, b] => [a.toNat / 4, a.toNat % 4 * 16 + b.toNat / 16, b.toNat % 16 * 4]
  | [a] => [a.toNat / 4, a.toNat % 4 * 16]
  | [] => []

section Encode

theorem pushByte_toNat (v : UInt32) (c : UInt8) : ((v <<< 8) + c.toUInt32).toNat = (v.toNat * 256 + c.toNat) % 2 ^ 32 := by
  rw [UInt32.toNat_add, UInt32.toNat_shiftLeft, Nat.shiftLeft_eq, UInt8.toNat_toUInt32]
  change (v.toNat * 2 ^ 8 % 2 ^ 32 + c.toNat) % 2 ^ 32 = _
  omega

theorem base64Char_shift (v : UInt32) {k : Nat} (hk : k < 32) :
    base64Char ((v >>> UInt32.ofNat k) &&& 0x3f) = base64Table.getD (v.toNat / 2 ^ k % 64) 0 := by
  have hshift : (UInt32.ofNat k).toNat % 32 = k := by
    rw [UInt32.toNat_ofNat']
    omega
  have hmask : ((v >>> UInt32.ofNat k) &&& 0x3f).toNat = v.toNat / 2 ^ k % 64 := by
    rw [UInt32.toNat_and, UInt32.toNat_shiftRight, hshift, Nat.shiftRight_eq_div_pow]
    exact Nat.and_two_pow_sub_one_eq_mod _ 6
  rw [base64Char, hmask]

theorem drain_of_neg {s : Base64Encoder} (hbits : s.bits < 0) : s.drain = s := by
  rw [Base64Encoder.drain, if_neg (by omega)]

theorem drain_nonneg (val : UInt32) {k : Nat} (hk : k < 32) (out : Bytes) :
    Base64Encoder.drain ⟨val, k, out⟩ = Base64Encoder.drain ⟨val, k - 6, out ++ [base64Table.getD (val.toNat / 2 ^ k % 64) 0]⟩ := by
  rw [Base64Encoder.drain, if_pos (Int.natCast_nonneg k)]
  simp only [Int.toNat_natCast, base64Char_shift val hk]

variable (val : UInt32) (out : Bytes)

/-- The first byte of a group completes one digit, the second another, and the third two. -/
theorem byte_first (a : UInt8) : Base64Encoder.byte ⟨val, -6, out⟩ a =
    ⟨(val <<< 8) + a.toUInt32, -4, out ++ [base64Table.getD (a.toNat / 4) 0]⟩ := by
  have ha := a.toNat_lt
  have hdigit : ((val <<< 8) + a.toUInt32).toNat / 2 ^ 2 % 64 = a.toNat / 4 := by
    rw [pushByte_toNat]
    omega
  change Base64Encoder.drain ⟨_, ((2 : Nat) : Int), out⟩ = _
  rw [drain_nonneg _ (by decide), hdigit]
  exact drain_of_neg (show ((2 : Nat) : Int) - 6 < 0 by decide)

theorem byte_second (b : UInt8) : Base64Encoder.byte ⟨val, -4, out⟩ b =
    ⟨(val <<< 8) + b.toUInt32, -2, out ++ [base64Table.getD (val.toNat % 4 * 16 + b.toNat / 16) 0]⟩ := by
  have hb := b.toNat_lt
  have hdigit : ((val <<< 8) + b.toUInt32).toNat / 2 ^ 4 % 64 = val.toNat % 4 * 16 + b.toNat / 16 := by
    rw [pushByte_toNat]
    omega
  change Base64Encoder.drain ⟨_, ((4 : Nat) : Int), out⟩ = _
  rw [drain_nonneg _ (by decide), hdigit]
  exact drain_of_neg (show ((4 : Nat) : Int) - 6 < 0 by decide)

theorem byte_third (c : UInt8) : Base64Encoder.byte ⟨val, -2, out⟩ c =
    ⟨(val <<< 8) + c.toUInt32, -6,
      out ++ [base64Table.getD (val.toNat % 16 * 4 + c.toNat / 64) 0, base64Table.getD (c.toNat % 64) 0]⟩ := by
  have hc := c.toNat_lt
  have hhigh : ((val <<< 8) + c.toUInt32).toNat / 2 ^ 6 % 64 = val.toNat % 16 * 4 + c.toNat / 64 := by
    rw [pushByte_toNat]
    omega
  have hlow : ((val <<< 8) + c.toUInt32).toNat / 2 ^ 0 % 64 = c.toNat % 64 := by
    rw [pushByte_toNat]
    omega
  change Base64Encoder.drain ⟨_, ((6 : Nat) : Int), out⟩ = _
  rw [drain_nonneg _ (by decide), hhigh]
  change Base64Encoder.drain ⟨_, ((0 : Nat) : Int), _⟩ = _
  rw [drain_nonneg _ (by decide), hlow, List.append_assoc]
  exact drain_of_neg (show ((0 : Nat) : Int) - 6 < 0 by decide)

/-- What is left over is shifted up into a whole digit: two bits after one byte, four after two. -/
theorem finish_first : Base64Encoder.finish ⟨val, -4, out⟩ = out ++ [base64Table.getD (val.toNat % 4 * 16) 0] := by
  have hdigit : (val <<< 8).toNat / 2 ^ 4 % 64 = val.toNat % 4 * 16 := by
    rw [UInt32.toNat_shiftLeft, Nat.shiftLeft_eq]
    change val.toNat * 2 ^ 8 % 2 ^ 32 / 2 ^ 4 % 64 = _
    omega
  have hchar := base64Char_shift (val <<< 8) (by decide : 4 < 32)
  rw [hdigit] at hchar
  rw [← hchar]
  rfl

theorem finish_second : Base64Encoder.finish ⟨val, -2, out⟩ = out ++ [base64Table.getD (val.toNat % 16 * 4) 0] := by
  have hdigit : (val <<< 8).toNat / 2 ^ 6 % 64 = val.toNat % 16 * 4 := by
    rw [UInt32.toNat_shiftLeft, Nat.shiftLeft_eq]
    change val.toNat * 2 ^ 8 % 2 ^ 32 / 2 ^ 6 % 64 = _
    omega
  have hchar := base64Char_shift (val <<< 8) (by decide : 6 < 32)
  rw [hdigit] at hchar
  rw [← hchar]
  rfl

/-- The encoder writes the groups. -/
theorem encoder_eq (input : Bytes) : (input.foldl Base64Encoder.byte ⟨val, -6, out⟩).finish =
    out ++ (sextets input).map fun n => base64Table.getD n 0 := by
  have hlow : ∀ (v : UInt32) (c : UInt8) (n : Nat), n ∣ 256 → ((v <<< 8) + c.toUInt32).toNat % n = c.toNat % n := by
    intro v c n hn
    have hmod : ((v <<< 8) + c.toUInt32).toNat % 256 = c.toNat % 256 := by
      rw [pushByte_toNat]
      omega
    rw [← Nat.mod_mod_of_dvd _ hn, hmod, Nat.mod_mod_of_dvd _ hn]
  fun_induction sextets input generalizing val out with
  | case1 a b c rest ih =>
    rw [List.foldl_cons, List.foldl_cons, List.foldl_cons, byte_first, byte_second, byte_third, ih, hlow _ _ 4 (by decide),
      hlow _ _ 16 (by decide)]
    simp only [List.map_cons, List.append_assoc, List.cons_append, List.nil_append]
  | case2 a b =>
    rw [List.foldl_cons, List.foldl_cons, List.foldl_nil, byte_first, byte_second, finish_second, hlow _ _ 4 (by decide),
      hlow _ _ 16 (by decide)]
    simp only [List.map_cons, List.map_nil, List.append_assoc, List.cons_append, List.nil_append]
  | case3 a =>
    rw [List.foldl_cons, List.foldl_nil, byte_first, finish_first, hlow _ _ 4 (by decide)]
    simp only [List.map_cons, List.map_nil, List.append_assoc, List.cons_append, List.nil_append]
  | case4 => exact (List.append_nil out).symm

end Encode

section Decode

theorem base64Value_getD {n : Nat} (hn : n < 64) :
    base64Table.getD n 0 ≠ 61 ∧ base64Value (base64Table.getD n 0) = some (UInt32.ofNat n) := by
  have hall : ∀ n < 64, base64Table.getD n 0 ≠ 61 ∧ base64Value (base64Table.getD n 0) = some (UInt32.ofNat n) := by
    decide +kernel
  exact hall n hn

theorem run_digit (s : Base64Decoder) {n : Nat} (hn : n < 64) (rest : Bytes) :
    s.run (base64Table.getD n 0 :: rest) = (s.digit (UInt32.ofNat n)).run rest := by
  obtain ⟨hequals, hvalue⟩ := base64Value_getD hn
  rw [Base64Decoder.run, if_neg hequals, hvalue]

theorem run_padding (s : Base64Decoder) (k : Nat) : s.run (List.replicate k 61) = s.out := by
  cases k with
  | zero => rfl
  | succ k => rw [List.replicate_succ, Base64Decoder.run, if_pos rfl]

theorem pushDigit_toNat (acc : UInt32) {n : Nat} (hn : n < 64) :
    ((acc <<< 6) ||| UInt32.ofNat n).toNat = (acc.toNat * 64 + n) % 2 ^ 32 := by
  have hshift : (acc <<< 6).toNat = 2 ^ 6 * (acc.toNat % 2 ^ 26) := by
    rw [UInt32.toNat_shiftLeft, Nat.shiftLeft_eq]
    change acc.toNat * 2 ^ 6 % 2 ^ 32 = _
    omega
  rw [UInt32.toNat_or, hshift, UInt32.toNat_ofNat_of_lt' (hn.trans (by decide)), ← Nat.two_pow_add_eq_or_of_lt hn]
  omega

theorem emit_eq (acc : UInt32) {k : Nat} (hk : k < 32) :
    ((acc >>> UInt32.ofNat k) &&& 0xff).toUInt8 = UInt8.ofNat (acc.toNat / 2 ^ k) := by
  have hshift : (UInt32.ofNat k).toNat % 32 = k := by
    rw [UInt32.toNat_ofNat']
    omega
  apply UInt8.toNat_inj.mp
  rw [UInt32.toNat_toUInt8, UInt32.toNat_and, UInt32.toNat_shiftRight, hshift, Nat.shiftRight_eq_div_pow, UInt8.toNat_ofNat']
  change (acc.toNat / 2 ^ k &&& (2 ^ 8 - 1)) % 2 ^ 8 = _
  rw [Nat.and_two_pow_sub_one_eq_mod, Nat.mod_mod]

variable (acc : UInt32) (out : Bytes) {n : Nat}

/-- Every digit of a group but the first completes a byte, and leaves `k` bits. -/
theorem digit_emits (hn : n < 64) {k : Nat} (hk : k = 4 ∨ k = 2 ∨ k = 0) :
    Base64Decoder.digit ⟨acc, k + 2, out⟩ (UInt32.ofNat n) =
      ⟨(acc <<< 6) ||| UInt32.ofNat n, k, out ++ [UInt8.ofNat ((acc.toNat * 64 + n) / 2 ^ k)]⟩ := by
  have hsame : UInt8.ofNat (((acc <<< 6) ||| UInt32.ofNat n).toNat / 2 ^ k) = UInt8.ofNat ((acc.toNat * 64 + n) / 2 ^ k) := by
    apply UInt8.toNat_inj.mp
    rw [UInt8.toNat_ofNat', UInt8.toNat_ofNat', pushDigit_toNat acc hn]
    rcases hk with rfl | rfl | rfl <;> omega
  rw [← hsame, ← emit_eq _ (by omega : k < 32), Base64Decoder.digit]
  simp only [if_pos (by omega : k + 2 + 6 ≥ 8), show k + 2 + 6 - 8 = k by omega]

/-- The decoder takes the groups apart again. -/
theorem decoder_eq (input : Bytes) (k : Nat) :
    Base64Decoder.run ⟨acc, 0, out⟩ ((sextets input).map (fun n => base64Table.getD n 0) ++ List.replicate k 61) = out ++ input := by
  have hfirst : ∀ acc out n, Base64Decoder.digit ⟨acc, 0, out⟩ (UInt32.ofNat n) = ⟨(acc <<< 6) ||| UInt32.ofNat n, 6, out⟩ :=
    fun _ _ _ => rfl
  have hlow : ∀ (acc : UInt32) {n : Nat}, n < 64 → ((acc <<< 6) ||| UInt32.ofNat n).toNat % 64 = n := by
    intro acc n hn
    rw [pushDigit_toNat acc hn]
    omega
  have hbyte : ∀ (b : UInt8) {m : Nat}, m % 256 = b.toNat → UInt8.ofNat m = b := by
    intro b m hm
    apply UInt8.toNat_inj.mp
    rw [UInt8.toNat_ofNat']
    exact hm
  fun_induction sextets input generalizing acc out with
  | case1 a b c rest ih =>
    have ha := a.toNat_lt
    have hb := b.toNat_lt
    have hc := c.toNat_lt
    have h0 : a.toNat / 4 < 64 := by omega
    have h1 : a.toNat % 4 * 16 + b.toNat / 16 < 64 := by omega
    have h2 : b.toNat % 16 * 4 + c.toNat / 64 < 64 := by omega
    have h3 : c.toNat % 64 < 64 := by omega
    have hacc0 := hlow acc h0
    have hacc1 := hlow ((acc <<< 6) ||| UInt32.ofNat (a.toNat / 4)) h1
    have hacc2 := hlow (((acc <<< 6) ||| UInt32.ofNat (a.toNat / 4)) <<< 6 ||| UInt32.ofNat (a.toNat % 4 * 16 + b.toNat / 16)) h2
    simp only [List.map_cons, List.cons_append]
    rw [run_digit _ h0, hfirst, run_digit _ h1, digit_emits _ _ h1 (.inl rfl), hbyte a (by omega),
      run_digit _ h2, digit_emits _ _ h2 (.inr (.inl rfl)), hbyte b (by omega),
      run_digit _ h3, digit_emits _ _ h3 (.inr (.inr rfl)), hbyte c (by omega), ih]
    simp only [List.append_assoc, List.cons_append, List.nil_append]
  | case2 a b =>
    have ha := a.toNat_lt
    have hb := b.toNat_lt
    have h0 : a.toNat / 4 < 64 := by omega
    have h1 : a.toNat % 4 * 16 + b.toNat / 16 < 64 := by omega
    have h2 : b.toNat % 16 * 4 < 64 := by omega
    have hacc0 := hlow acc h0
    have hacc1 := hlow ((acc <<< 6) ||| UInt32.ofNat (a.toNat / 4)) h1
    simp only [List.map_cons, List.map_nil, List.cons_append, List.nil_append]
    rw [run_digit _ h0, hfirst, run_digit _ h1, digit_emits _ _ h1 (.inl rfl), hbyte a (by omega),
      run_digit _ h2, digit_emits _ _ h2 (.inr (.inl rfl)), hbyte b (by omega), run_padding, List.append_assoc, List.singleton_append]
  | case3 a =>
    have ha := a.toNat_lt
    have h0 : a.toNat / 4 < 64 := by omega
    have h1 : a.toNat % 4 * 16 < 64 := by omega
    have hacc0 := hlow acc h0
    simp only [List.map_cons, List.map_nil, List.cons_append, List.nil_append]
    rw [run_digit _ h0, hfirst, run_digit _ h1, digit_emits _ _ h1 (.inl rfl), hbyte a (by omega), run_padding]
  | case4 => rw [List.map_nil, List.nil_append, run_padding, List.append_nil]

/-- The server's decoder takes back what the CLI's encoder writes. -/
theorem base64Decode_base64Encode (c : Bytes) : base64Decode (base64Encode c) = c := by
  rw [base64Encode, encoder_eq, List.nil_append]
  exact decoder_eq 0 [] c _

end Decode

/-- `std::string::find` from a position on. -/
def findFrom (text needle : Bytes) (pos : Nat) : Option Nat :=
  ((text.drop pos).tails.findIdx? needle.isPrefixOf).map (pos + ·)

/-- The two searches and the cut that trim a header value. -/
def trimHeader (header : Bytes) : Bytes :=
  match header.findIdx? (· ∉ ascii " \t"), header.reverse.findIdx? (· ∉ ascii " \t\r") with
  | some s, some back => (header.drop s).take (header.length - 1 - back - s + 1)
  | _, _ => []

/-- The `authHeader` that `AcceptLoop` takes from the first chunk of a request. -/
def authHeaderOf (chunk : Bytes) : Bytes :=
  match findFrom chunk (ascii "Authorization:") 0 with
  | none => []
  | some authPos =>
    match (findFrom chunk (ascii "\r\n") authPos).or (findFrom chunk (ascii "\n") authPos) with
    | none => []
    | some nl => trimHeader ((chunk.drop (authPos + 14)).take (nl - authPos - 14))

structure CliConfig where
  rpcUser : Bytes
  rpcPassword : Bytes

def CliConfig.credentials (cfg : CliConfig) : Bytes := cfg.rpcUser ++ ascii ":" ++ cfg.rpcPassword

/-- The value of the header that the CLI sends. -/
def CliConfig.basic (cfg : CliConfig) : Bytes := ascii "Basic " ++ base64Encode cfg.credentials

def CliConfig.authLine (cfg : CliConfig) : Bytes := ascii "Authorization: " ++ cfg.basic ++ ascii "\r\n"

def requestLine : Bytes := ascii "POST / HTTP/1.1\r\nHost: localhost\r\n"

/-- The HTTP request of `RpcCall`. -/
def CliConfig.request (cfg : CliConfig) (body : Bytes) : Bytes :=
  requestLine ++ cfg.authLine ++
    (ascii "Content-Type: application/json\r\nContent-Length: " ++ ascii (toString body.length) ++
      ascii "\r\nConnection: close\r\n\r\n" ++ body)

structure CRpcServer where
  rpcUser : Bytes
  rpcPassword : Bytes

def CRpcServer.checkAuth (server : CRpcServer) (authHeader : Bytes) : Bool :=
  if server.rpcUser = [] then true
  else if (ascii "Basic ").isPrefixOf authHeader then
    base64Decode (authHeader.drop 6) == server.rpcUser ++ ascii ":" ++ server.rpcPassword
  else false

section Header

/-- A text is found behind a part in which its first byte does not occur. -/
theorem findFrom_append (before rest : Bytes) {lead needle : Bytes} {c : UInt8} (hlead : c ∉ lead)
    (hneedle : needle.head? = some c) :
    findFrom (before ++ (lead ++ needle ++ rest)) needle before.length = some (before.length + lead.length) := by
  have hfound : (lead ++ needle ++ rest).tails.findIdx? needle.isPrefixOf = some lead.length := by
    induction lead with
    | nil =>
      have hhere : needle.isPrefixOf (needle ++ rest) = true := List.isPrefixOf_iff_prefix.mpr (List.prefix_append _ _)
      cases hcase : needle ++ rest <;> simp_all [List.findIdx?_cons]
    | cons x lead ih =>
      have hx : needle.isPrefixOf (x :: lead ++ needle ++ rest) = false := by
        cases needle with
        | nil => cases hneedle
        | cons y needle =>
          cases hneedle
          have hne : c ≠ x := fun h => hlead (h ▸ List.mem_cons_self)
          simp [List.isPrefixOf, hne]
      simp only [List.cons_append, List.tails_cons, List.findIdx?_cons] at hx ⊢
      rw [hx, ih fun h => hlead (List.mem_cons_of_mem _ h)]
      rfl
  rw [findFrom, List.drop_left, hfound]
  rfl

theorem base64Table_no_blank (n : Nat) : base64Table.getD n 0 ∉ ascii " \t\r" := by
  have hmem : base64Table.getD n 0 ∈ 0 :: base64Table := by
    rw [List.getD_eq_getElem?_getD]
    cases hget : base64Table[n]? with
    | none => exact List.mem_cons_self
    | some c => exact List.mem_cons_of_mem _ (List.mem_of_getElem? hget)
  exact (show ∀ c ∈ 0 :: base64Table, c ∉ ascii " \t\r" by decide +kernel) _ hmem

theorem base64Encode_no_blank (input : Bytes) : ∀ c ∈ base64Encode input, c ∉ ascii " \t\r" := by
  intro c hc
  rw [base64Encode, encoder_eq, List.nil_append] at hc
  rcases List.mem_append.mp hc with hdigit | hpad
  · obtain ⟨n, -, rfl⟩ := List.mem_map.mp hdigit
    exact base64Table_no_blank n
  · rw [List.eq_of_mem_replicate hpad]
    decide

theorem base64Encode_ne_nil {input : Bytes} (hinput : input ≠ []) : base64Encode input ≠ [] := by
  intro hnil
  have hround := base64Decode_base64Encode input
  rw [hnil] at hround
  exact hinput hround.symm

theorem trimHeader_blank {value : Bytes} {b z : UInt8} (hb : value.head? = some b) (hfirst : b ∉ ascii " \t\r")
    (hz : value.getLast? = some z) (hlast : z ∉ ascii " \t\r") : trimHeader (ascii " " ++ value) = value := by
  have hfront : (ascii " " ++ value).findIdx? (· ∉ ascii " \t") = some 1 := by
    obtain ⟨rest, rfl⟩ := List.head?_eq_some_iff.mp hb
    have hkept : b ∉ ascii " \t" := fun h => hfirst (List.mem_append_left (ascii "\r") h)
    simpa [ascii, List.findIdx?_cons] using hkept
  have hback : (ascii " " ++ value).reverse.findIdx? (· ∉ ascii " \t\r") = some 0 := by
    obtain ⟨init, rfl⟩ := List.getLast?_eq_some_iff.mp hz
    simp [List.findIdx?_cons, hlast]
  have hpos : 0 < value.length := List.length_pos_iff.mpr fun h => by simp [h] at hb
  have hlen : (ascii " " ++ value).length = value.length + 1 := by rw [List.length_append, Nat.add_comm]; rfl
  rw [trimHeader, hfront, hback]
  simp only [hlen]
  rw [show value.length + 1 - 1 - 0 - 1 + 1 = value.length by omega]
  exact List.take_length

/-- The server takes the value of the header from any chunk that holds the whole line. -/
theorem authHeaderOf_authLine (cfg : CliConfig) (rest : Bytes) :
    authHeaderOf (requestLine ++ cfg.authLine ++ rest) = cfg.basic := by
  have hnonempty : base64Encode cfg.credentials ≠ [] := by
    apply base64Encode_ne_nil
    simp [CliConfig.credentials, ascii]
  have hlast : cfg.basic.getLast? = some ((base64Encode cfg.credentials).getLast hnonempty) := by
    rw [CliConfig.basic, List.getLast?_append_of_ne_nil _ hnonempty, List.getLast?_eq_some_getLast hnonempty]
  have hcr : (13 : UInt8) ∉ ascii "Authorization: " ++ cfg.basic := by
    intro hmem
    rcases List.mem_append.mp hmem with hname | hvalue
    · exact absurd hname (by decide)
    · rcases List.mem_append.mp hvalue with hscheme | hdigit
      · exact absurd hscheme (by decide)
      · exact base64Encode_no_blank _ _ hdigit (by decide)
  have hauth : findFrom (requestLine ++ cfg.authLine ++ rest) (ascii "Authorization:") 0 = some requestLine.length := by
    have hfound := findFrom_append [] (ascii " " ++ cfg.basic ++ ascii "\r\n" ++ rest)
      (show (65 : UInt8) ∉ requestLine by decide) (show (ascii "Authorization:").head? = some 65 from rfl)
    rw [List.length_nil, Nat.zero_add, List.nil_append] at hfound
    rw [← hfound]
    simp only [CliConfig.authLine, List.append_assoc]
    rfl
  have hnl := findFrom_append requestLine rest hcr (show (ascii "\r\n").head? = some 13 from rfl)
  rw [← List.append_assoc] at hnl
  have hcut : ((requestLine ++ cfg.authLine ++ rest).drop (requestLine.length + 14)).take (cfg.basic.length + 1) =
      ascii " " ++ cfg.basic := by
    have hchunk : requestLine ++ cfg.authLine ++ rest =
        requestLine ++ ascii "Authorization:" ++ (ascii " " ++ cfg.basic ++ (ascii "\r\n" ++ rest)) := by
      simp only [CliConfig.authLine, List.append_assoc]
      rfl
    rw [hchunk, List.drop_left' (by rw [List.length_append]; rfl), List.take_left' (by rw [List.length_append, Nat.add_comm]; rfl)]
  have hlength : (ascii "Authorization: " ++ cfg.basic).length = cfg.basic.length + 15 := by
    rw [List.length_append, Nat.add_comm]
    rfl
  rw [authHeaderOf, hauth]
  simp only
  rw [CliConfig.authLine, hnl, Option.some_or]
  simp only
  rw [hlength, show requestLine.length + (cfg.basic.length + 15) - requestLine.length - 14 = cfg.basic.length + 1 by omega]
  rw [CliConfig.authLine] at hcut
  rw [hcut]
  exact trimHeader_blank (show cfg.basic.head? = some 66 from rfl) (by decide) hlast
    (base64Encode_no_blank _ _ (List.getLast_mem hnonempty))

end Header

/-- The decoder of the server is inverse to the encoder of the CLI, and a request is accepted exactly
    if its credentials are those of the server, given as the header's value or inside a first chunk
    that holds the whole line. -/
theorem credentials_roundTrip : (∀ c, base64Decode (base64Encode c) = c) ∧
    ∀ (server : CRpcServer) (cfg : CliConfig), server.rpcUser ≠ [] →
      (server.checkAuth cfg.basic = true ↔
        cfg.rpcUser ++ ascii ":" ++ cfg.rpcPassword = server.rpcUser ++ ascii ":" ++ server.rpcPassword) ∧
      ∀ body n, (requestLine ++ cfg.authLine).length ≤ n →
        (server.checkAuth (authHeaderOf ((cfg.request body).take n)) = true ↔
          cfg.rpcUser ++ ascii ":" ++ cfg.rpcPassword = server.rpcUser ++ ascii ":" ++ server.rpcPassword) := by
  have hbasic : ∀ (server : CRpcServer) (cfg : CliConfig), server.rpcUser ≠ [] →
      (server.checkAuth cfg.basic = true ↔
        cfg.rpcUser ++ ascii ":" ++ cfg.rpcPassword = server.rpcUser ++ ascii ":" ++ server.rpcPassword) := by
    intro server cfg huser
    have hscheme : (ascii "Basic ").isPrefixOf cfg.basic = true := List.isPrefixOf_iff_prefix.mpr (List.prefix_append _ _)
    have hvalue : cfg.basic.drop 6 = base64Encode cfg.credentials := rfl
    rw [CRpcServer.checkAuth, if_neg huser, if_pos hscheme, hvalue, base64Decode_base64Encode, beq_iff_eq, CliConfig.credentials]
  refine ⟨base64Decode_base64Encode, fun server cfg huser => ⟨hbasic server cfg huser, ?_⟩⟩
  intro body n hn
  rw [CliConfig.request, List.take_append, List.take_of_length_le hn, authHeaderOf_authLine]
  exact hbasic server cfg huser

def defaultCli : CliConfig := ⟨ascii "cdx", ascii "cdx"⟩

def defaultServer : CRpcServer := ⟨ascii "cdx", ascii "cdx"⟩

/-- The default credentials of the CLI are accepted, also from a chunk that ends with their line. -/
theorem credentials_roundTrip_default : defaultServer.checkAuth defaultCli.basic = true ∧
    defaultServer.checkAuth (authHeaderOf ((defaultCli.request []).take (requestLine ++ defaultCli.authLine).length)) = true := by
  obtain ⟨hheader, hchunk⟩ := credentials_roundTrip.2 defaultServer defaultCli (by decide)
  exact ⟨hheader.mpr rfl, (hchunk [] _ le_rfl).mpr rfl⟩

end cdx
