import Cdx.Lib.Labelled
import Cdx.Lib.OrderedMap
import Cdx.Transaction.RoundTrip
import Cdx.Wallet.Keys

namespace cdx

open codec
open Std (ExtTreeMap)

/-- A vector of bytes: its size is a 64-bit word. -/
abbrev ByteVector := { bytes : Bytes // bytes.length < 2 ^ 64 }

abbrev Salt := { bytes : Bytes // bytes.length = 16 }

abbrev IV := { bytes : Bytes // bytes.length = 12 }

abbrev Tag := { bytes : Bytes // bytes.length = 16 }

/-- What the keystore takes from OpenSSL: PBKDF2 with its 210000 rounds, and AES-256-GCM
    with the error that a failure throws. -/
class Cipher where
  deriveKey : (password salt : Bytes) → Option Bytes32
  aesEncrypt : (key : Bytes) → (plain : Bytes32) → (iv : IV) → Except String (ByteVector × Tag)
  aesDecrypt : (key cipher iv tag : Bytes) → Except String Bytes

structure EncryptedKeyEntry where
  address : Address
  ciphertext : ByteVector
  iv : ByteVector
  tag : ByteVector
  created : UInt64

theorem length_emptySalt : ([] : Bytes).length < 2 ^ 64 := by decide

structure CKeystore where
  locked : Bool := true
  salt : ByteVector := ⟨[], length_emptySalt⟩
  kek : Bytes := []
  keys : ExtTreeMap Address EncryptedKeyEntry := ∅

/-- An array as a vector. -/
def toVector {n : Nat} (hn : n < 2 ^ 64) (bytes : { bytes : Bytes // bytes.length = n }) : ByteVector :=
  ⟨bytes.val, bytes.property.trans_lt hn⟩

theorem sixteen_lt : 16 < 2 ^ 64 := by decide

theorem twelve_lt : 12 < 2 ^ 64 := by decide

section Operations

variable [Cipher]

/-- The entry of a key that is encrypted under a key-encryption key. -/
def encryptEntry (kek : Bytes) (address : Address) (plain : Bytes32) (iv : IV) (now : UInt64) :
    Except String EncryptedKeyEntry :=
  (Cipher.aesEncrypt kek plain iv).map fun sealed =>
    { address := address, ciphertext := sealed.1, iv := toVector twelve_lt iv,
      tag := toVector sixteen_lt sealed.2, created := now }

def EncryptedKeyEntry.decrypt (e : EncryptedKeyEntry) (kek : Bytes) : Except String Bytes :=
  Cipher.aesDecrypt kek e.ciphertext.val e.iv.val e.tag.val

namespace CKeystore

/-- `AddKey`. The entry replaces one that is stored under the address. -/
def addKey (ks : CKeystore) (kp : KeyPair) (iv : IV) (now : UInt64) : Except String Bool × CKeystore :=
  if ks.locked then (.ok false, ks)
  else
    match encryptEntry ks.kek kp.address (getPrivKey kp.key) iv now with
    | .error e => (.error e, ks)
    | .ok entry => (.ok true, { ks with keys := ks.keys.insert kp.address entry })

def getKey (ks : CKeystore) (address : Address) : Except String CKey :=
  if ks.locked then .ok none
  else
    match ks.keys[address]? with
    | none => .ok none
    | some entry => (entry.decrypt ks.kek).map setPrivKey

def getAddresses (ks : CKeystore) : List Address := ks.keys.toList.map Prod.fst

def lock (ks : CKeystore) : CKeystore := { ks with kek := [], locked := true }

/-- What `Unlock` does to a key that it has derived: the first entry must decrypt under it. -/
def tryKey (ks : CKeystore) (k : Bytes32) : Bool × CKeystore :=
  match ks.keys.toList.head? with
  | none => (true, { ks with kek := k.val, locked := false })
  | some first =>
    match first.2.decrypt k.val with
    | .error _ => (false, ks)
    | .ok plain => if plain.length ≠ 32 then (false, ks) else (true, { ks with kek := k.val, locked := false })

/-- A keystore without a salt takes the one drawn. -/
def ensureSalt (ks : CKeystore) (draw : Salt) : CKeystore :=
  if ks.salt.val = [] then { ks with salt := toVector sixteen_lt draw } else ks

def unlock (ks : CKeystore) (password : Bytes) (draw : Salt) : Bool × CKeystore :=
  match Cipher.deriveKey password (ks.ensureSalt draw).salt.val with
  | none => (false, ks.ensureSalt draw)
  | some k => (ks.ensureSalt draw).tryKey k

/-- The keys that `ChangePassword` copies, unless one of them cannot be had. -/
def copyKeys (ks : CKeystore) : List Address → Except String (Option (List (Address × PrivKey)))
  | [] => .ok (some [])
  | address :: rest =>
    match ks.getKey address with
    | .error e => .error e
    | .ok none => .ok none
    | .ok (some k) => (ks.copyKeys rest).map fun copies => copies.map fun copies => (address, k) :: copies

/-- The last loop of `ChangePassword`. A failure throws from the middle of it. -/
def reencrypt (ks : CKeystore) : List (Address × PrivKey) → (Nat → IV × UInt64) → Except String Bool × CKeystore
  | [], _ => (.ok true, ks)
  | (address, k) :: rest, draw =>
    match encryptEntry ks.kek address (getPrivKey (some k)) (draw 0).1 (draw 0).2 with
    | .error e => (.error e, ks)
    | .ok entry => { ks with keys := ks.keys.insert address entry }.reencrypt rest fun i => draw (i + 1)

/-- `ChangePassword` once the keystore is unlocked. -/
def rekey (ks : CKeystore) (newPassword : Bytes) (newSalt : Salt) (draw : Nat → IV × UInt64) :
    Except String Bool × CKeystore :=
  match ks.copyKeys ks.getAddresses with
  | .error e => (.error e, ks)
  | .ok none => (.ok false, ks.lock)
  | .ok (some copies) =>
    match Cipher.deriveKey newPassword newSalt.val with
    | none => (.ok false, ks.lock)
    | some newKek => { ks with kek := newKek.val, salt := toVector sixteen_lt newSalt, keys := ∅ }.reencrypt copies draw

/-- `ChangePassword`. Only a locked keystore looks at the old password. -/
def changePassword (ks : CKeystore) (oldPassword newPassword : Bytes) (draw newSalt : Salt) (draws : Nat → IV × UInt64) :
    Except String Bool × CKeystore :=
  if ks.locked then
    match ks.unlock oldPassword draw with
    | (false, ks) => (.ok false, ks)
    | (true, ks) => ks.rekey newPassword newSalt draws
  else ks.rekey newPassword newSalt draws

end CKeystore

end Operations

section Inversion

variable [Cipher]

/-- The entry decrypts to something of the size of a key. -/
def EncryptedKeyEntry.Opens (entry : EncryptedKeyEntry) (kek : Bytes) : Prop :=
  ∃ plain, entry.decrypt kek = .ok plain ∧ plain.length = 32

namespace CKeystore

/-- The test of `Unlock`: the first entry opens under the key. -/
def FirstOpens (ks : CKeystore) (kek : Bytes) : Prop :=
  ∀ first, ks.keys.toList.head? = some first → first.2.Opens kek

theorem tryKey_cases (ks : CKeystore) (k : Bytes32) :
    (ks.FirstOpens k.val ∧ ks.tryKey k = (true, { ks with kek := k.val, locked := false })) ∨
      (¬ ks.FirstOpens k.val ∧ ks.tryKey k = (false, ks)) := by
  unfold tryKey FirstOpens
  cases hfirst : ks.keys.toList.head? with
  | none => exact Or.inl ⟨fun first h => (Option.some_ne_none first h.symm).elim, rfl⟩
  | some first =>
    simp only [Option.some.injEq, forall_eq']
    cases hdecrypt : first.2.decrypt k.val with
    | error e =>
      refine Or.inr ⟨?_, rfl⟩
      rintro ⟨plain, hplain, -⟩
      rw [hdecrypt] at hplain
      cases hplain
    | ok plain =>
      simp only
      by_cases hlength : plain.length = 32
      · exact Or.inl ⟨⟨plain, hdecrypt, hlength⟩, if_neg (not_not.mpr hlength)⟩
      · refine Or.inr ⟨?_, if_pos hlength⟩
        rintro ⟨plain', hplain, hlength'⟩
        rw [hdecrypt] at hplain
        cases hplain
        exact hlength hlength'

/-- The salt that `Unlock` derives the key with. -/
def saltFor (salt : ByteVector) (draw : Salt) : ByteVector := if salt.val = [] then toVector sixteen_lt draw else salt

omit [Cipher] in
theorem ensureSalt_eq (ks : CKeystore) (draw : Salt) : ks.ensureSalt draw = { ks with salt := saltFor ks.salt draw } := by
  unfold ensureSalt saltFor
  split <;> rfl

omit [Cipher] in
theorem salt_ne_nil (salt : Salt) : salt.val ≠ [] := List.ne_nil_of_length_pos (salt.property.symm ▸ Nat.zero_lt_succ 15)

omit [Cipher] in
theorem saltFor_ne_nil (salt : ByteVector) (draw : Salt) : (saltFor salt draw).val ≠ [] := by
  unfold saltFor
  split
  · exact salt_ne_nil draw
  · assumption

omit [Cipher] in
theorem saltFor_saltFor (salt : ByteVector) (draw draw' : Salt) :
    saltFor (saltFor salt draw) draw' = saltFor salt draw :=
  if_neg (saltFor_ne_nil salt draw)

theorem unlock_of_opens {ks : CKeystore} {password : Bytes} {draw : Salt} {k : Bytes32}
    (hk : Cipher.deriveKey password (saltFor ks.salt draw).val = some k) (hopens : ks.FirstOpens k.val) :
    ks.unlock password draw = (true, { ks with salt := saltFor ks.salt draw, kek := k.val, locked := false }) := by
  rw [unlock, ensureSalt_eq, hk]
  rcases tryKey_cases { ks with salt := saltFor ks.salt draw } k with ⟨-, htry⟩ | ⟨hnot, -⟩
  · exact htry
  · exact absurd hopens hnot

/-- What `Unlock` does: a key that opens the first entry is taken, and the salt is there in any case. -/
theorem unlock_cases (ks : CKeystore) (password : Bytes) (draw : Salt) :
    (∃ k, Cipher.deriveKey password (saltFor ks.salt draw).val = some k ∧ ks.FirstOpens k.val ∧
      ks.unlock password draw = (true, { ks with salt := saltFor ks.salt draw, kek := k.val, locked := false })) ∨
    ks.unlock password draw = (false, { ks with salt := saltFor ks.salt draw }) := by
  cases hk : Cipher.deriveKey password (saltFor ks.salt draw).val with
  | none =>
    right
    rw [unlock, ensureSalt_eq, hk]
  | some k =>
    by_cases hopens : ks.FirstOpens k.val
    · exact Or.inl ⟨k, rfl, hopens, unlock_of_opens hk hopens⟩
    · right
      rw [unlock, ensureSalt_eq, hk]
      exact ((tryKey_cases { ks with salt := saltFor ks.salt draw } k).resolve_left fun h => hopens h.1).2

theorem keys_unlock (ks : CKeystore) (password : Bytes) (draw : Salt) : (ks.unlock password draw).2.keys = ks.keys := by
  rcases ks.unlock_cases password draw with ⟨k, -, -, hunlock⟩ | hunlock <;> rw [hunlock]

theorem getKey_eq_some_iff {ks : CKeystore} (hlocked : ks.locked = false) (address : Address) (k : PrivKey) :
    ks.getKey address = .ok (some k) ↔ ∃ entry, ks.keys[address]? = some entry ∧ entry.decrypt ks.kek = .ok k.val := by
  rw [getKey, if_neg (by rw [hlocked]; exact Bool.false_ne_true)]
  cases hentry : ks.keys[address]? with
  | none => simp
  | some entry =>
    simp only [Option.some.injEq, exists_eq_left']
    cases hdecrypt : entry.decrypt ks.kek with
    | error e => simp [Except.map]
    | ok plain =>
      simp only [Except.map, Except.ok.injEq, setPrivKey]
      constructor
      · intro hset
        split at hset
        · cases hset
          rfl
        · cases hset
      · rintro rfl
        exact dif_pos k.property

omit [Cipher] in
theorem mem_getAddresses (ks : CKeystore) (address : Address) : address ∈ ks.getAddresses ↔ address ∈ ks.keys := by
  rw [getAddresses, ExtTreeMap.map_fst_toList_eq_keys, ExtTreeMap.mem_keys]

/-- The copies of `ChangePassword` are what `GetKey` returns. -/
theorem copyKeys_spec {ks : CKeystore} {addresses : List Address} {copies : List (Address × PrivKey)}
    (hcopies : ks.copyKeys addresses = .ok (some copies)) :
    copies.map Prod.fst = addresses ∧ ∀ kv ∈ copies, ks.getKey kv.1 = .ok (some kv.2) := by
  induction addresses generalizing copies with
  | nil =>
    cases hcopies
    exact ⟨rfl, List.forall_mem_nil _⟩
  | cons address rest ih =>
    rw [copyKeys] at hcopies
    split at hcopies
    · cases hcopies
    · cases hcopies
    next k hk =>
      cases hrest : ks.copyKeys rest with
      | error e =>
        rw [hrest] at hcopies
        cases hcopies
      | ok more =>
        rw [hrest] at hcopies
        cases more with
        | none => cases hcopies
        | some more =>
          cases hcopies
          obtain ⟨hfirst, hsound⟩ := ih hrest
          exact ⟨congrArg (address :: ·) hfirst, List.forall_mem_cons.mpr ⟨hk, hsound⟩⟩

end CKeystore

end Inversion

section Format

def KEYSTORE_MAGIC : Bytes := ascii "CDXW"

def KEYSTORE_VERSION : UInt8 := 1

def writeAddress (address : Address) : Bytes := writeVarStr ⟨address.bytes, address.property⟩

def readAddress : Reader Address := (fun bytes => ⟨bytes.val, bytes.property⟩) <$> readVarStr

def serializeKeyEntry (e : EncryptedKeyEntry) : Bytes :=
  writeAddress e.address ++ (writeVarStr e.ciphertext ++ (writeVarStr e.iv ++ (writeVarStr e.tag ++ writeU64 e.created)))

def readKeyEntry : Reader EncryptedKeyEntry := do
  let address ← readAddress
  let ciphertext ← readVarStr
  let iv ← readVarStr
  let tag ← readVarStr
  let created ← readU64
  pure { address, ciphertext, iv, tag, created }

/-- The number of keys, at most a million. -/
def readKeyCount : Reader Nat := do
  let n ← readVarInt
  if n > 1000000 then failure
  pure n

def CKeystore.serialize (ks : CKeystore) : Bytes :=
  KEYSTORE_MAGIC ++ ([KEYSTORE_VERSION] ++ (writeVarStr ks.salt ++ (writeVarInt ks.keys.size ++
    ks.keys.toList.flatMap fun kv => serializeKeyEntry kv.2)))

/-- Each entry goes to the address that it names. -/
def storeEntries (entries : List EncryptedKeyEntry) : ExtTreeMap Address EncryptedKeyEntry :=
  orderedMap.insertAll (entries.map fun e => (e.address, e)) ∅

def readKeystore : Labelled UInt8 String CKeystore := do
  label "invalid keystore magic" (exactly KEYSTORE_MAGIC)
  label "unsupported keystore version" (exactly [KEYSTORE_VERSION])
  let salt ← label "corrupt keystore" readVarStr
  let n ← label "corrupt keystore" readKeyCount
  let entries ← label "corrupt keystore entry" (many readKeyEntry n)
  pure { salt, keys := storeEntries entries }

/-- `Deserialize`: a new keystore, locked, with the salt and the entries read. -/
def deserializeKeystore (data : Bytes) : Except String CKeystore := (readKeystore.run ⟨data, 0⟩).map Prod.fst

theorem reads_address (address : Address) : Reads readAddress (writeAddress address) address :=
  (reads_varStr ⟨address.bytes, address.property⟩).map fun bytes => (⟨bytes.val, bytes.property⟩ : Address)

theorem reads_keyEntry (e : EncryptedKeyEntry) : Reads readKeyEntry (serializeKeyEntry e) e := by
  refine (reads_address e.address).bind ((reads_varStr e.ciphertext).bind ((reads_varStr e.iv).bind ?_))
  exact (reads_varStr e.tag).bind ((reads_u64 e.created).bind_pure _)

theorem reads_keyCount {n : Nat} (hn : n ≤ 1000000) : Reads readKeyCount (writeVarInt n) n :=
  (reads_varInt (lt_of_le_of_lt hn (by norm_num))).atMost hn

/-- Every entry is stored under the address that it names. -/
def CKeystore.Named (ks : CKeystore) : Prop :=
  ∀ (address : Address) (entry : EncryptedKeyEntry), ks.keys[address]? = some entry → entry.address = address

theorem CKeystore.Named.storeEntries_eq {ks : CKeystore} (hnamed : ks.Named) :
    storeEntries (ks.keys.toList.map Prod.snd) = ks.keys := by
  have hsame : (ks.keys.toList.map Prod.snd).map (fun e => (e.address, e)) = ks.keys.toList := by
    rw [List.map_map]
    refine (List.map_congr_left fun entry hentry => ?_).trans (List.map_id _)
    have hlookup := ExtTreeMap.mem_toList_iff_getElem?_eq_some.mp hentry
    exact Prod.ext (hnamed _ _ hlookup) rfl
  rw [storeEntries, hsame]
  refine orderedMap.insertAll_toList ?_
  intro address entry hentry
  simp at hentry

/-- A saved keystore is read back with its salt and its entries, and locked. -/
theorem CKeystore.Named.deserialize_serialize {ks : CKeystore} (hnamed : ks.Named) (hsize : ks.keys.size ≤ 1000000) :
    deserializeKeystore ks.serialize = .ok { salt := ks.salt, keys := ks.keys } := by
  have hentries : Reads (many readKeyEntry ks.keys.size) (ks.keys.toList.flatMap fun kv => serializeKeyEntry kv.2)
      (ks.keys.toList.map Prod.snd) := by
    have hmany := reads_many fun e (_ : e ∈ ks.keys.toList.map Prod.snd) => reads_keyEntry e
    rwa [List.length_map, ExtTreeMap.length_toList, List.flatMap_map] at hmany
  have hread : Accepts readKeystore ks.serialize { salt := ks.salt, keys := storeEntries (ks.keys.toList.map Prod.snd) } := by
    refine ((reads_exactly KEYSTORE_MAGIC).label _).bind (((reads_exactly [KEYSTORE_VERSION]).label _).bind ?_)
    refine ((reads_varStr ks.salt).label _).bind (((reads_keyCount hsize).label _).bind ?_)
    exact (hentries.label _).bind_pure fun entries => ({ salt := ks.salt, keys := storeEntries entries } : CKeystore)
  rw [hnamed.storeEntries_eq] at hread
  rw [deserializeKeystore, hread.run_all]
  rfl

/-- A keystore of more than a million keys is not read back. -/
theorem CKeystore.deserialize_of_large {ks : CKeystore} (hlarge : 1000000 < ks.keys.size) (hsize : ks.keys.size < 2 ^ 64) :
    deserializeKeystore ks.serialize = .error "corrupt keystore" := by
  have hcount (before after : Bytes) : readKeyCount.run ⟨before ++ (writeVarInt ks.keys.size ++ after), before.length⟩ = none := by
    simp only [readKeyCount, StateT.run_bind, reads_varInt hsize before after, Option.bind_eq_bind, Option.bind_some,
      if_pos hlarge]
    rfl
  suffices hfail : readKeystore.run ⟨ks.serialize, 0⟩ = .error "corrupt keystore" by
    rw [deserializeKeystore, hfail]
    rfl
  refine (((reads_exactly KEYSTORE_MAGIC).label _).run_bind _ [] _).trans ?_
  refine (((reads_exactly [KEYSTORE_VERSION]).label _).run_bind _ _ _).trans ?_
  refine (((reads_varStr ks.salt).label _).run_bind _ _ _).trans ?_
  rw [StateT.run_bind, StateT.run, label, hcount]
  rfl

end Format

section Assumptions

variable [Cipher]

/-- What is assumed of AES-GCM: encryption does not fail, decryption inverts it under the same
    key, and no other key opens what was encrypted under a key of the passwords in use. -/
structure AesGcm (passwords : List Bytes) : Prop where
  encrypts : ∀ key plain iv, ∃ sealed, Cipher.aesEncrypt key plain iv = .ok sealed
  decrypts : ∀ key plain iv sealed, Cipher.aesEncrypt key plain iv = .ok sealed →
    Cipher.aesDecrypt key sealed.1.val iv.val sealed.2.val = .ok plain.val
  authentic : ∀ password ∈ passwords, ∀ salt key, Cipher.deriveKey password salt = some key →
    ∀ plain iv sealed, Cipher.aesEncrypt key.val plain iv = .ok sealed →
      ∀ other ≠ key.val, ∃ e, Cipher.aesDecrypt other sealed.1.val iv.val sealed.2.val = .error e

/-- The entry is an encryption of the private key. -/
def EncryptedKeyEntry.Seals (entry : EncryptedKeyEntry) (kek : Bytes) (k : PrivKey) : Prop :=
  ∃ iv now, encryptEntry kek entry.address (getPrivKey (some k)) iv now = .ok entry

theorem encryptEntry_eq_ok {kek : Bytes} {address : Address} {plain : Bytes32} {iv : IV} {now : UInt64}
    {entry : EncryptedKeyEntry} (hentry : encryptEntry kek address plain iv now = .ok entry) :
    entry.address = address ∧ ∃ sealed, Cipher.aesEncrypt kek plain iv = .ok sealed ∧ entry.ciphertext = sealed.1 ∧
      entry.iv.val = iv.val ∧ entry.tag.val = sealed.2.val := by
  unfold encryptEntry at hentry
  cases hsealed : Cipher.aesEncrypt kek plain iv with
  | error e =>
    rw [hsealed] at hentry
    cases hentry
  | ok sealed =>
    rw [hsealed] at hentry
    cases hentry
    exact ⟨rfl, sealed, rfl, rfl, rfl, rfl⟩

namespace AesGcm

variable {passwords : List Bytes} (haes : AesGcm passwords)
include haes

theorem encryptEntry_ok (kek : Bytes) (address : Address) (plain : Bytes32) (iv : IV) (now : UInt64) :
    ∃ entry, encryptEntry kek address plain iv now = .ok entry := by
  obtain ⟨sealed, hsealed⟩ := haes.encrypts kek plain iv
  rw [encryptEntry, hsealed]
  exact ⟨_, rfl⟩

theorem decrypt_encryptEntry {kek : Bytes} {address : Address} {plain : Bytes32} {iv : IV} {now : UInt64}
    {entry : EncryptedKeyEntry} (hentry : encryptEntry kek address plain iv now = .ok entry) :
    entry.decrypt kek = .ok plain.val := by
  obtain ⟨-, sealed, hsealed, hcipher, hiv, htag⟩ := encryptEntry_eq_ok hentry
  rw [EncryptedKeyEntry.decrypt, hcipher, hiv, htag, haes.decrypts _ _ _ _ hsealed]

theorem decrypt_of_seals {entry : EncryptedKeyEntry} {kek : Bytes} {k : PrivKey} (hseals : entry.Seals kek k) :
    entry.decrypt kek = .ok k.val := by
  obtain ⟨iv, now, hentry⟩ := hseals
  exact haes.decrypt_encryptEntry hentry

theorem decrypt_of_ne {password salt : Bytes} {kek : Bytes32} (hpassword : password ∈ passwords)
    (hkek : Cipher.deriveKey password salt = some kek) {address : Address} {plain : Bytes32} {iv : IV} {now : UInt64}
    {entry : EncryptedKeyEntry} (hentry : encryptEntry kek.val address plain iv now = .ok entry) {other : Bytes}
    (hother : other ≠ kek.val) : ∃ e, entry.decrypt other = .error e := by
  obtain ⟨-, sealed, hsealed, hcipher, hiv, htag⟩ := encryptEntry_eq_ok hentry
  rw [EncryptedKeyEntry.decrypt, hcipher, hiv, htag]
  exact haes.authentic password hpassword salt kek hkek _ _ _ hsealed other hother

/-- `AddKey` stores the key unless the keystore is locked. -/
theorem addKey_cases (ks : CKeystore) (kp : KeyPair) (iv : IV) (now : UInt64) :
    (ks.locked = true ∧ ks.addKey kp iv now = (.ok false, ks)) ∨
    (ks.locked = false ∧ ∃ entry, encryptEntry ks.kek kp.address (getPrivKey kp.key) iv now = .ok entry ∧
      ks.addKey kp iv now = (.ok true, { ks with keys := ks.keys.insert kp.address entry })) := by
  cases hlocked : ks.locked with
  | true =>
    refine Or.inl ⟨rfl, ?_⟩
    rw [CKeystore.addKey, if_pos hlocked]
  | false =>
    obtain ⟨entry, hentry⟩ := haes.encryptEntry_ok ks.kek kp.address (getPrivKey kp.key) iv now
    refine Or.inr ⟨rfl, entry, hentry, ?_⟩
    rw [CKeystore.addKey, if_neg (by rw [hlocked]; exact Bool.false_ne_true), hentry, hlocked]

end AesGcm

end Assumptions

end cdx
