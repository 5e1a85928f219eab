import Cdx.Crypto.Sha256
import Cdx.Wallet.Keys

namespace cdx

open codec

/-- HMAC-SHA256 under a key of 32 bytes. -/
abbrev Hmac := Bytes32 → Bytes → Bytes32

/-- The chain of HMAC calls behind a deterministic nonce. -/
@[ext]
structure NonceState where
  K : Bytes32
  V : Bytes32

/-- How a derivation lays out its messages: those of the two updates at the start, and that
    of the update after a candidate out of range. -/
structure NonceLayout where
  seed : UInt8 → Bytes32 → Bytes
  retry : Bytes32 → Bytes

section Derivation

def isCandidate (V : Bytes32) : Bool := decide (0 < beDecode V.val) && decide (beDecode V.val < SECP256K1_ORDER)

theorem length_startV : (List.replicate 32 (0x01 : UInt8)).length = 32 := List.length_replicate

namespace NonceLayout

variable (layout : NonceLayout) (hmac : Hmac)

def start : NonceState :=
  let V : Bytes32 := ⟨List.replicate 32 0x01, length_startV⟩
  let K : Bytes32 := ⟨List.replicate 32 0x00, length_zeroKey⟩
  let K := hmac K (layout.seed 0x00 V)
  let V := hmac K V.val
  let K := hmac K (layout.seed 0x01 V)
  let V := hmac K V.val
  ⟨K, V⟩

/-- The bytes that a round tries as a number. -/
def candidate (s : NonceState) : Bytes32 := hmac s.K s.V.val

/-- The end of a round whose candidate is out of range. -/
def next (s : NonceState) : NonceState :=
  let V := candidate hmac s
  let K := hmac s.K (layout.retry V)
  let V := hmac K V.val
  ⟨K, V⟩

/-- The loop, with fuel: the first candidate in range. -/
def search : Nat → NonceState → Option Nat
  | 0, _ => none
  | fuel + 1, s =>
    let V := candidate hmac s
    if isCandidate V then some (beDecode V.val) else search fuel (layout.next hmac s)

/-- The derivation ends with this number. -/
def Chooses (k : Nat) : Prop := ∃ fuel, layout.search hmac fuel (layout.start hmac) = some k

/-- The state before the round of this index. -/
def stateAt (n : Nat) : NonceState := (layout.next hmac)^[n] (layout.start hmac)

/-- The round of this index is the first whose candidate is in range. -/
def EndsAt (n : Nat) : Prop :=
  isCandidate (candidate hmac (layout.stateAt hmac n)) = true ∧
    ∀ m < n, isCandidate (candidate hmac (layout.stateAt hmac m)) = false

theorem stateAt_succ (n : Nat) : layout.stateAt hmac (n + 1) = layout.next hmac (layout.stateAt hmac n) :=
  Function.iterate_succ_apply' ..

theorem search_stateAt {fuel k : Nat} (n : Nat)
    (hbefore : ∀ m < n, isCandidate (candidate hmac (layout.stateAt hmac m)) = false)
    (hsearch : layout.search hmac fuel (layout.stateAt hmac n) = some k) :
    ∃ m, layout.EndsAt hmac m ∧ k = beDecode (candidate hmac (layout.stateAt hmac m)).val := by
  induction fuel generalizing n with
  | zero => cases hsearch
  | succ fuel ih =>
    rw [search] at hsearch
    by_cases hrange : isCandidate (candidate hmac (layout.stateAt hmac n)) = true
    · simp only [if_pos hrange] at hsearch
      cases hsearch
      exact ⟨n, ⟨hrange, hbefore⟩, rfl⟩
    · simp only [if_neg hrange] at hsearch
      rw [← stateAt_succ] at hsearch
      refine ih (n + 1) (fun m hm => ?_) hsearch
      rcases Nat.lt_succ_iff_lt_or_eq.mp hm with hlt | rfl
      · exact hbefore m hlt
      · exact Bool.of_not_eq_true hrange

theorem search_of_endsAt {n : Nat} (hends : layout.EndsAt hmac n) (m : Nat) (hm : m ≤ n) :
    layout.search hmac (n - m + 1) (layout.stateAt hmac m) = some (beDecode (candidate hmac (layout.stateAt hmac n)).val) := by
  induction hremaining : n - m generalizing m with
  | zero =>
    have hlast : m = n := by omega
    rw [hlast, search, if_pos hends.1]
  | succ remaining ih =>
    have hrange := hends.2 m (by omega)
    rw [search, if_neg (by rw [hrange]; exact Bool.false_ne_true), ← stateAt_succ]
    exact ih (m + 1) (by omega) (by omega)

/-- The number chosen is that of the first candidate in range. -/
theorem chooses_iff (k : Nat) :
    layout.Chooses hmac k ↔ ∃ n, layout.EndsAt hmac n ∧ k = beDecode (candidate hmac (layout.stateAt hmac n)).val := by
  constructor
  · rintro ⟨fuel, hsearch⟩
    exact layout.search_stateAt hmac 0 (fun m hm => absurd hm (Nat.not_lt_zero m)) hsearch
  · rintro ⟨n, hends, rfl⟩
    exact ⟨_, layout.search_of_endsAt hmac hends 0 (Nat.zero_le n)⟩

theorem endsAt_unique {m n : Nat} (hm : layout.EndsAt hmac m) (hn : layout.EndsAt hmac n) : m = n := by
  rcases Nat.lt_trichotomy m n with hlt | heq | hlt
  · exact absurd hm.1 (by rw [hn.2 m hlt]; exact Bool.false_ne_true)
  · exact heq
  · exact absurd hn.1 (by rw [hm.2 n hlt]; exact Bool.false_ne_true)

theorem Chooses.unique {layout : NonceLayout} {hmac : Hmac} {k k' : Nat} (hk : layout.Chooses hmac k)
    (hk' : layout.Chooses hmac k') : k = k' := by
  obtain ⟨n, hn, rfl⟩ := (layout.chooses_iff hmac k).mp hk
  obtain ⟨m, hm, rfl⟩ := (layout.chooses_iff hmac k').mp hk'
  rw [layout.endsAt_unique hmac hn hm]

end NonceLayout

end Derivation

section Calls

namespace NonceLayout

variable (layout : NonceLayout) (hmac : Hmac)

/-- The calls of the updates at the start. -/
def seedCalls : List (Bytes32 × Bytes) :=
  let V : Bytes32 := ⟨List.replicate 32 0x01, length_startV⟩
  let K : Bytes32 := ⟨List.replicate 32 0x00, length_zeroKey⟩
  let K' := hmac K (layout.seed 0x00 V)
  let V' := hmac K' V.val
  [(K, layout.seed 0x00 V), (K', V.val), (K', layout.seed 0x01 V'), (hmac K' (layout.seed 0x01 V'), V'.val)]

/-- The calls of a round whose candidate is out of range. -/
def roundCalls (s : NonceState) : List (Bytes32 × Bytes) :=
  [(s.K, s.V.val), (s.K, layout.retry (candidate hmac s)), ((layout.next hmac s).K, (candidate hmac s).val)]

/-- The calls of a derivation that ends in the round of this index. -/
def asked (n : Nat) : List (Bytes32 × Bytes) :=
  layout.seedCalls hmac ++ ((List.range n).flatMap fun m => layout.roundCalls hmac (layout.stateAt hmac m)) ++
    [((layout.stateAt hmac n).K, (layout.stateAt hmac n).V.val)]

theorem mem_asked_seed (n : Nat) :
    ∃ K V, (K, layout.seed 0x01 V) ∈ layout.asked hmac n ∧ (layout.start hmac).K = hmac K (layout.seed 0x01 V) :=
  ⟨_, _, List.mem_append_left _ (List.mem_append_left _ (.tail _ (.tail _ (.head _)))), rfl⟩

theorem mem_asked_round {m n : Nat} (hm : m < n) {call : Bytes32 × Bytes}
    (hcall : call ∈ layout.roundCalls hmac (layout.stateAt hmac m)) : call ∈ layout.asked hmac n :=
  List.mem_append_left _ (List.mem_append_right _ (List.mem_flatMap.mpr ⟨m, List.mem_range.mpr hm, hcall⟩))

theorem mem_asked_candidate {m n : Nat} (hm : m ≤ n) :
    ((layout.stateAt hmac m).K, (layout.stateAt hmac m).V.val) ∈ layout.asked hmac n := by
  rcases Nat.lt_or_eq_of_le hm with hlt | rfl
  · exact layout.mem_asked_round hmac hlt (.head _)
  · exact List.mem_append_right _ (.head _)

end NonceLayout

/-- No two different calls, one of each list, have the same digest. -/
def NoCollision (hmac : Hmac) (calls calls' : List (Bytes32 × Bytes)) : Prop :=
  ∀ call ∈ calls, ∀ call' ∈ calls', hmac call.1 call.2 = hmac call'.1 call'.2 → call = call'

/-- The last update of the key at the start of one derivation has a message that is none of the other's. -/
structure SeedsApart (layout layout' : NonceLayout) : Prop where
  seed_seed : ∀ V V', layout.seed 0x01 V ≠ layout'.seed 0x01 V'
  seed_retry : ∀ V V', layout.seed 0x01 V ≠ layout'.retry V'
  retry_seed : ∀ V V', layout.retry V ≠ layout'.seed 0x01 V'

/-- Without a collision two derivations with different layouts never reach the same state. -/
theorem SeedsApart.stateAt_ne {layout layout' : NonceLayout} (hapart : SeedsApart layout layout') {hmac : Hmac} {n n' : Nat}
    (hcalls : NoCollision hmac (layout.asked hmac n) (layout'.asked hmac n')) {m m' : Nat} (hm : m ≤ n) (hm' : m' ≤ n') :
    layout.stateAt hmac m ≠ layout'.stateAt hmac m' := by
  -- The keys of equal states come from equal messages, so both runs can be followed back.
  induction m generalizing m' with
  | zero =>
    obtain ⟨K, V, hmem, hK⟩ := layout.mem_asked_seed hmac n
    intro hsame
    cases m' with
    | zero =>
      obtain ⟨K', V', hmem', hK'⟩ := layout'.mem_asked_seed hmac n'
      have hcall := hcalls _ hmem _ hmem' (hK.symm.trans ((congrArg NonceState.K hsame).trans hK'))
      exact hapart.seed_seed V V' (congrArg Prod.snd hcall)
    | succ m' =>
      rw [layout'.stateAt_succ] at hsame
      have hmem' := layout'.mem_asked_round hmac hm' (.tail _ (.head _))
      have hcall := hcalls _ hmem _ hmem' (hK.symm.trans (congrArg NonceState.K hsame))
      exact hapart.seed_retry _ _ (congrArg Prod.snd hcall)
  | succ m ih =>
    intro hsame
    rw [layout.stateAt_succ] at hsame
    cases m' with
    | zero =>
      have hmem := layout.mem_asked_round hmac hm (.tail _ (.head _))
      obtain ⟨K', V', hmem', hK'⟩ := layout'.mem_asked_seed hmac n'
      have hcall := hcalls _ hmem _ hmem' ((congrArg NonceState.K hsame).trans hK')
      exact hapart.retry_seed _ _ (congrArg Prod.snd hcall)
    | succ m' =>
      rw [layout'.stateAt_succ] at hsame
      have hupdate := hcalls _ (layout.mem_asked_round hmac hm (.tail _ (.tail _ (.head _)))) _
        (layout'.mem_asked_round hmac hm' (.tail _ (.tail _ (.head _)))) (congrArg NonceState.V hsame)
      have hcandidate := hcalls _ (layout.mem_asked_candidate hmac (Nat.le_of_succ_le hm)) _
        (layout'.mem_asked_candidate hmac (Nat.le_of_succ_le hm')) (Subtype.ext (congrArg Prod.snd hupdate))
      exact ih (Nat.le_of_succ_le hm) (Nat.le_of_succ_le hm')
        (NonceState.ext (congrArg Prod.fst hcandidate) (Subtype.ext (congrArg Prod.snd hcandidate)))

theorem beDecode_injective {V V' : Bytes32} (hsame : beDecode V.val = beDecode V'.val) : V = V' := by
  have hlength : V.val.reverse.length = V'.val.reverse.length := by
    rw [List.length_reverse, List.length_reverse, V.property, V'.property]
  refine Subtype.ext (List.reverse_injective ?_)
  rw [← leEncode_leDecode V.val.reverse, ← leEncode_leDecode V'.val.reverse, hlength]
  exact congrArg _ hsame

/-- So they choose different numbers. -/
theorem SeedsApart.not_chooses {layout layout' : NonceLayout} (hapart : SeedsApart layout layout') {hmac : Hmac}
    (hcalls : ∀ n n', layout.EndsAt hmac n → layout'.EndsAt hmac n' →
      NoCollision hmac (layout.asked hmac n) (layout'.asked hmac n')) {k : Nat} (hk : layout.Chooses hmac k) :
    ¬layout'.Chooses hmac k := by
  intro hk'
  obtain ⟨n, hn, rfl⟩ := (layout.chooses_iff hmac k).mp hk
  obtain ⟨n', hn', hsame⟩ := (layout'.chooses_iff hmac _).mp hk'
  have hcall := hcalls n n' hn hn' _ (layout.mem_asked_candidate hmac (Nat.le_refl n)) _
    (layout'.mem_asked_candidate hmac (Nat.le_refl n')) (beDecode_injective hsame)
  exact hapart.stateAt_ne (hcalls n n' hn hn') (Nat.le_refl n) (Nat.le_refl n')
    (NonceState.ext (congrArg Prod.fst hcall) (Subtype.ext (congrArg Prod.snd hcall)))

end Calls

section Standard

variable (hmac : Hmac) (priv : PrivKey) (hash : Bytes32)

/-- The messages of `RFC6979_GenerateK`. -/
def sourceLayout : NonceLayout where
  seed b _ := b :: (priv.val ++ hash.val)
  retry V := 0x00 :: V.val

def rfc6979GenerateK (fuel : Nat) : Option Nat :=
  (sourceLayout priv hash).search hmac fuel ((sourceLayout priv hash).start hmac)

/-- `bits2octets` of RFC 6979, section 2.3.4, for 32 bytes. -/
def bits2octets : Bytes :=
  let z1 := beDecode hash.val
  let z2 := if z1 < SECP256K1_ORDER then z1 else z1 - SECP256K1_ORDER
  (leEncode 32 z2).reverse

/-- The messages of RFC 6979, section 3.2. -/
def standardLayout : NonceLayout where
  seed b V := V.val ++ b :: (priv.val ++ bits2octets hash)
  retry V := V.val ++ [0x00]

/-- The procedure of RFC 6979, section 3.2. -/
def standardGenerateK (fuel : Nat) : Option Nat :=
  (standardLayout priv hash).search hmac fuel ((standardLayout priv hash).start hmac)

/-- Both choose the same number, if any. -/
def FollowsStandard : Prop :=
  ∀ k, (∃ fuel, rfc6979GenerateK hmac priv hash fuel = some k) ↔ ∃ fuel, standardGenerateK hmac priv hash fuel = some k

/-- The source leaves out the old value that the messages of the standard start with. -/
theorem seedsApart : SeedsApart (sourceLayout priv hash) (standardLayout priv hash) := by
  have hpriv := priv.length_eq
  have hhash := hash.property
  have hoctets : (bits2octets hash).length = 32 := by rw [bits2octets, List.length_reverse, length_leEncode]
  constructor
  all_goals
    intro V V' hsame
    have hV := V.property
    have hV' := V'.property
    have hlength := congrArg List.length hsame
    simp only [sourceLayout, standardLayout, List.length_cons, List.length_append, List.length_nil] at hlength
    omega

/-- The calls of the source and those of the standard share no digest, unless they are the same call. -/
def CallsApart : Prop :=
  ∀ n n', (sourceLayout priv hash).EndsAt hmac n → (standardLayout priv hash).EndsAt hmac n' →
    NoCollision hmac ((sourceLayout priv hash).asked hmac n) ((standardLayout priv hash).asked hmac n')

/-- The digest tells the two layouts of the start apart, and is the key for all other messages. -/
def lengthHmac : Hmac := fun K message =>
  if message.length = 65 then ⟨List.replicate 32 0x01, length_startV⟩
  else if message.length = 97 then ⟨List.replicate 32 0x02, List.length_replicate⟩
  else K

theorem lengthHmac_bytes32 (K V : Bytes32) : lengthHmac K V.val = K := by
  rw [lengthHmac, V.property]
  rfl

/-- A derivation whose first updates have one digest only sees that digest. -/
theorem start_lengthHmac {layout : NonceLayout} {D : Bytes32} (hseed : ∀ K b V, lengthHmac K (layout.seed b V) = D) :
    layout.start lengthHmac = ⟨D, D⟩ := by
  rw [NonceLayout.start]
  simp only [hseed, lengthHmac_bytes32]

theorem endsAt_lengthHmac {layout : NonceLayout} {D : Bytes32} (hseed : ∀ K b V, lengthHmac K (layout.seed b V) = D)
    (hrange : isCandidate D = true) : layout.EndsAt lengthHmac 0 := by
  refine ⟨?_, fun m hm => absurd hm (Nat.not_lt_zero m)⟩
  rw [NonceLayout.stateAt, Function.iterate_zero_apply, start_lengthHmac hseed, NonceLayout.candidate, lengthHmac_bytes32]
  exact hrange

theorem chooses_lengthHmac {layout : NonceLayout} {D : Bytes32} (hseed : ∀ K b V, lengthHmac K (layout.seed b V) = D)
    (hrange : isCandidate D = true) : layout.Chooses lengthHmac (beDecode D.val) := by
  refine (layout.chooses_iff lengthHmac _).mpr ⟨0, endsAt_lengthHmac hseed hrange, ?_⟩
  rw [NonceLayout.stateAt, Function.iterate_zero_apply, start_lengthHmac hseed, NonceLayout.candidate, lengthHmac_bytes32]

theorem digest_asked_lengthHmac {layout : NonceLayout} {D : Bytes32} (hseed : ∀ K b V, lengthHmac K (layout.seed b V) = D)
    {call : Bytes32 × Bytes} (hcall : call ∈ layout.asked lengthHmac 0) : lengthHmac call.1 call.2 = D := by
  have hstart : layout.stateAt lengthHmac 0 = ⟨D, D⟩ := start_lengthHmac hseed
  simp only [NonceLayout.asked, NonceLayout.seedCalls, hseed, hstart, List.range_zero, List.flatMap_nil, List.append_nil,
    List.cons_append, List.nil_append, List.mem_cons, List.not_mem_nil, or_false] at hcall
  rcases hcall with rfl | rfl | rfl | rfl | rfl
  · exact hseed ..
  · exact lengthHmac_bytes32 D ⟨_, length_startV⟩
  · exact hseed ..
  · exact lengthHmac_bytes32 ..
  · exact lengthHmac_bytes32 ..

theorem lengthHmac_source (K : Bytes32) (b : UInt8) (V : Bytes32) :
    lengthHmac K ((sourceLayout priv hash).seed b V) = ⟨List.replicate 32 0x01, length_startV⟩ := by
  have hlength : ((sourceLayout priv hash).seed b V).length = 65 := by
    rw [sourceLayout, List.length_cons, List.length_append, priv.length_eq, hash.property]
  rw [lengthHmac, if_pos hlength]

theorem lengthHmac_standard (K : Bytes32) (b : UInt8) (V : Bytes32) :
    lengthHmac K ((standardLayout priv hash).seed b V) = ⟨List.replicate 32 0x02, List.length_replicate⟩ := by
  have hlength : ((standardLayout priv hash).seed b V).length = 97 := by
    rw [standardLayout, List.length_append, List.length_cons, List.length_append, priv.length_eq, V.property, bits2octets,
      List.length_reverse, length_leEncode]
  rw [lengthHmac, hlength]
  rfl

/-- For no key and no hash is the number that of the standard with every HMAC. With an HMAC that has no
    collision between the calls of the two procedures they differ as soon as either chooses a number. -/
theorem followsStandard_iff :
    (¬∀ hmac : Hmac, FollowsStandard hmac priv hash) ∧
    ∀ hmac : Hmac, CallsApart hmac priv hash → (FollowsStandard hmac priv hash ↔
      ∀ fuel, rfc6979GenerateK hmac priv hash fuel = none ∧ standardGenerateK hmac priv hash fuel = none) := by
  constructor
  · intro hfollows
    have hsource := chooses_lengthHmac (lengthHmac_source priv hash) (by decide)
    have hstandard := chooses_lengthHmac (lengthHmac_standard priv hash) (by decide)
    have hsame := NonceLayout.Chooses.unique ((hfollows lengthHmac _).mp hsource) hstandard
    exact absurd hsame (by decide)
  · intro hmac hcalls
    constructor
    · intro hfollows fuel
      constructor
      · by_contra hsome
        obtain ⟨k, hk⟩ := Option.ne_none_iff_exists'.mp hsome
        exact (seedsApart priv hash).not_chooses hcalls ⟨fuel, hk⟩ ((hfollows k).mp ⟨fuel, hk⟩)
      · by_contra hsome
        obtain ⟨k, hk⟩ := Option.ne_none_iff_exists'.mp hsome
        exact (seedsApart priv hash).not_chooses hcalls ((hfollows k).mpr ⟨fuel, hk⟩) ⟨fuel, hk⟩
    · intro hnone k
      refine iff_of_false ?_ ?_
      · rintro ⟨fuel, hk⟩
        rw [(hnone fuel).1] at hk
        cases hk
      · rintro ⟨fuel, hk⟩
        rw [(hnone fuel).2] at hk
        cases hk

end Standard

section Sample

/-- The hash that the test of the signatures takes. -/
def signedHash : Bytes32 := ⟨0x42 :: List.replicate 31 0, rfl⟩

theorem followsStandard_iff_sample :
    CallsApart lengthHmac oneKey signedHash ∧ ¬FollowsStandard lengthHmac oneKey signedHash := by
  have hsource := endsAt_lengthHmac (lengthHmac_source oneKey signedHash) (by decide)
  have hstandard := endsAt_lengthHmac (lengthHmac_standard oneKey signedHash) (by decide)
  have hcalls : CallsApart lengthHmac oneKey signedHash := by
    intro n n' hn hn' call hcall call' hcall' hsame
    rw [NonceLayout.endsAt_unique _ _ hn hsource] at hcall
    rw [NonceLayout.endsAt_unique _ _ hn' hstandard] at hcall'
    rw [digest_asked_lengthHmac (lengthHmac_source oneKey signedHash) hcall,
      digest_asked_lengthHmac (lengthHmac_standard oneKey signedHash) hcall'] at hsame
    exact absurd hsame (by decide)
  refine ⟨hcalls, fun hfollows => ?_⟩
  have hnone := ((followsStandard_iff oneKey signedHash).2 lengthHmac hcalls).mp hfollows
  obtain ⟨fuel, hk⟩ := chooses_lengthHmac (lengthHmac_source oneKey signedHash) (by decide)
  exact absurd (hk.symm.trans (hnone fuel).1) (Option.some_ne_none _)

/-- HMAC-SHA256 under a key of 32 bytes: the key fills up to a block with zeros. -/
def hmacSha256 : Hmac := fun K message =>
  let block := K.val ++ List.replicate 32 0
  ⟨sha256Full (block.map (· ^^^ 0x5c) ++ sha256Full (block.map (· ^^^ 0x36) ++ message)), length_sha256Full _⟩

theorem rfc6979GenerateK_sample : rfc6979GenerateK hmacSha256 oneKey signedHash 1 =
    some 0xf17db6f2ecd05ea3e4b9fa4c4498be22d0284b41e9d09f7c544106e06fd631ed := by
  decide +kernel

theorem standardGenerateK_sample : standardGenerateK hmacSha256 oneKey signedHash 1 =
    some 0x6883d3ea721310dc1bec5e6d73865888cb1b4b58d7bc9710d1513c69fa206a8f := by
  decide +kernel

/-- With HMAC-SHA256 the key 1 and this hash have another number than the standard's. -/
theorem followsStandard_fails : ¬FollowsStandard hmacSha256 oneKey signedHash := by
  intro hfollows
  have hsame := NonceLayout.Chooses.unique ((hfollows _).mp ⟨1, rfc6979GenerateK_sample⟩) ⟨1, standardGenerateK_sample⟩
  exact absurd hsame (by decide)

end Sample

end cdx
