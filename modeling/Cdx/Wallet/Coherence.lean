import Cdx.Wallet.Keystore

namespace cdx

open Std (ExtTreeMap)

/-- What else is assumed of PBKDF2: it does not fail, and no other password leads to the key of
    one of the passwords in use. -/
structure IdealCipher [Cipher] (passwords : List Bytes) : Prop extends AesGcm passwords where
  derives : ∀ password salt, ∃ key, Cipher.deriveKey password salt = some key
  injective : ∀ password ∈ passwords, ∀ other salt,
    Cipher.deriveKey other salt = Cipher.deriveKey password salt → other = password

theorem IdealCipher.mono [Cipher] {passwords fewer : List Bytes} (hideal : IdealCipher passwords)
    (hsub : fewer ⊆ passwords) : IdealCipher fewer where
  encrypts := hideal.encrypts
  decrypts := hideal.decrypts
  authentic := fun password hpassword => hideal.authentic password (hsub hpassword)
  derives := hideal.derives
  injective := fun password hpassword => hideal.injective password (hsub hpassword)

section Invariant

variable [Cipher]

/-- The entries hold the keys added, encrypted under one key; `rest` is yet to be stored. -/
structure Covers (kek : Bytes) (added : Address → Option PrivKey) (keys : ExtTreeMap Address EncryptedKeyEntry)
    (rest : List (Address × PrivKey)) : Prop where
  entries : ∀ (address : Address) (entry : EncryptedKeyEntry), keys[address]? = some entry →
    entry.address = address ∧ ∃ k, added address = some k ∧ entry.Seals kek k
  complete : ∀ address k, added address = some k → address ∈ keys ∨ (address, k) ∈ rest

theorem covers_empty (kek : Bytes) : Covers kek (fun _ => none) ∅ [] := by
  refine ⟨?_, ?_⟩
  · intro address entry hentry
    simp at hentry
  · intro address k hk
    cases hk

/-- A map without entries is sealed under any key. -/
theorem Covers.of_empty {kek : Bytes} {added : Address → Option PrivKey} {keys : ExtTreeMap Address EncryptedKeyEntry}
    {rest : List (Address × PrivKey)} (hcovers : Covers kek added keys rest) (hkeys : keys = ∅) (kek' : Bytes) :
    Covers kek' added keys rest := by
  refine ⟨?_, hcovers.complete⟩
  intro address entry hentry
  simp [hkeys] at hentry

/-- A new entry under an address: the one key that changes is the one it seals. -/
theorem Covers.insert {kek : Bytes} {added added' : Address → Option PrivKey} {keys : ExtTreeMap Address EncryptedKeyEntry}
    {rest rest' : List (Address × PrivKey)} (hcovers : Covers kek added keys rest) {address : Address} {k : PrivKey}
    (hk : added' address = some k) (hothers : ∀ query ≠ address, added' query = added query)
    (hrest : ∀ kv ∈ rest, kv.1 ≠ address → kv ∈ rest') {entry : EncryptedKeyEntry} {iv : IV} {now : UInt64}
    (hentry : encryptEntry kek address (getPrivKey (some k)) iv now = .ok entry) :
    Covers kek added' (keys.insert address entry) rest' := by
  have haddress := (encryptEntry_eq_ok hentry).1
  refine ⟨?_, ?_⟩
  · intro query e he
    rw [orderedMap.lookup_insert] at he
    split at he
    next hquery =>
      cases he
      subst hquery
      refine ⟨haddress, k, hk, iv, now, ?_⟩
      rw [haddress]
      exact hentry
    next hquery =>
      rw [hothers query hquery]
      exact hcovers.entries query e he
  · intro query k' hk'
    rw [orderedMap.mem_insert]
    by_cases hquery : query = address
    · exact Or.inl (Or.inl hquery)
    · rw [hothers query hquery] at hk'
      exact (hcovers.complete query k' hk').imp Or.inr fun hmem => hrest _ hmem hquery

/-- The keystore holds the keys added under the password. -/
structure CKeystore.Under (ks : CKeystore) (password : Bytes) (added : Address → Option PrivKey) (kek : Bytes32) : Prop where
  derived : Cipher.deriveKey password ks.salt.val = some kek
  covers : Covers kek.val added ks.keys []
  unlocked : ks.locked = false → ks.kek = kek.val
  salted : ks.salt.val = [] → ks.keys = ∅ ∧ ks.locked = true

theorem CKeystore.Under.named {ks : CKeystore} {password : Bytes} {added : Address → Option PrivKey} {kek : Bytes32}
    (hunder : ks.Under password added kek) : ks.Named :=
  fun address entry hentry => (hunder.covers.entries address entry hentry).1

theorem CKeystore.Under.lock {ks : CKeystore} {password : Bytes} {added : Address → Option PrivKey} {kek : Bytes32}
    (hunder : ks.Under password added kek) : ks.lock.Under password added kek where
  derived := hunder.derived
  covers := hunder.covers
  unlocked := fun hlocked => absurd hlocked.symm Bool.false_ne_true
  salted := fun hsalt => ⟨(hunder.salted hsalt).1, rfl⟩

section Sealing

variable {passwords : List Bytes} (haes : AesGcm passwords)
include haes

namespace CKeystore

variable {ks : CKeystore} {added : Address → Option PrivKey}

/-- A key that sealed the entries opens the first of them. -/
theorem firstOpens_of_covers {kek : Bytes} {rest : List (Address × PrivKey)} (hcovers : Covers kek added ks.keys rest) :
    ks.FirstOpens kek := by
  intro first hfirst
  have hentry := ExtTreeMap.mem_toList_iff_getElem?_eq_some.mp (List.mem_of_mem_head? hfirst)
  obtain ⟨-, k, -, hseals⟩ := hcovers.entries _ _ hentry
  exact ⟨k.val, haes.decrypt_of_seals hseals, k.length_eq⟩

/-- Once a key is stored no key but the one that sealed it opens the first entry. -/
theorem Under.not_firstOpens {password : Bytes} {kek : Bytes32} (hunder : ks.Under password added kek)
    (hpassword : password ∈ passwords) (hkeys : ks.keys ≠ ∅) {other : Bytes} (hother : other ≠ kek.val) :
    ¬ ks.FirstOpens other := by
  intro hopens
  cases hfirst : ks.keys.toList.head? with
  | none =>
    rw [List.head?_eq_none_iff, ExtTreeMap.toList_eq_nil_iff] at hfirst
    exact hkeys hfirst
  | some first =>
    have hentry := ExtTreeMap.mem_toList_iff_getElem?_eq_some.mp (List.mem_of_mem_head? hfirst)
    obtain ⟨-, k, -, iv, now, hseals⟩ := hunder.covers.entries _ _ hentry
    obtain ⟨e, he⟩ := haes.decrypt_of_ne hpassword hunder.derived hseals hother
    obtain ⟨plain, hplain, -⟩ := hopens first hfirst
    rw [he] at hplain
    cases hplain

/-- The last loop of `ChangePassword` stores what is left to store. -/
theorem reencrypt_spec {copies : List (Address × PrivKey)} (draw : Nat → IV × UInt64)
    (hcovers : Covers ks.kek added ks.keys copies) (hcopies : ∀ kv ∈ copies, added kv.1 = some kv.2) :
    ∃ keys, ks.reencrypt copies draw = (.ok true, { ks with keys := keys }) ∧ Covers ks.kek added keys [] := by
  induction copies generalizing ks draw with
  | nil => exact ⟨ks.keys, rfl, hcovers⟩
  | cons kv rest ih =>
    obtain ⟨address, k⟩ := kv
    obtain ⟨hk, hrest⟩ := List.forall_mem_cons.mp hcopies
    obtain ⟨entry, hentry⟩ := haes.encryptEntry_ok ks.kek address (getPrivKey (some k)) (draw 0).1 (draw 0).2
    have hnext : Covers ks.kek added (ks.keys.insert address entry) rest := by
      refine hcovers.insert hk (fun _ _ => rfl) ?_ hentry
      intro other hmem hne
      rcases List.mem_cons.mp hmem with rfl | hmem
      · exact absurd rfl hne
      · exact hmem
    rw [reencrypt, hentry]
    exact @ih { ks with keys := ks.keys.insert address entry } _ hnext hrest

end CKeystore

end Sealing

section Ideal

variable {passwords : List Bytes} (hideal : IdealCipher passwords)
include hideal

namespace CKeystore

variable {ks : CKeystore} {password : Bytes} {added : Address → Option PrivKey} {kek : Bytes32}
  (hunder : ks.Under password added kek)
include hunder

omit hunder in
/-- A new keystore is under any password. -/
theorem under_empty (password : Bytes) : ∃ kek, ({} : CKeystore).Under password (fun _ => none) kek := by
  obtain ⟨kek, hkek⟩ := hideal.derives password []
  refine ⟨kek, hkek, covers_empty _, ?_, fun _ => ⟨rfl, rfl⟩⟩
  intro hlocked
  cases hlocked

/-- An unlocked keystore returns the keys added. -/
theorem Under.getKey_eq (hlocked : ks.locked = false) (address : Address) : ks.getKey address = .ok (added address) := by
  rw [getKey, if_neg (by rw [hlocked]; exact Bool.false_ne_true)]
  cases hentry : ks.keys[address]? with
  | none =>
    cases hk : added address with
    | none => rfl
    | some k =>
      rcases hunder.covers.complete address k hk with hmem | hrest
      · rw [ExtTreeMap.mem_iff_isSome_getElem?, hentry] at hmem
        cases hmem
      · cases hrest
  | some entry =>
    obtain ⟨-, k, hk, hseals⟩ := hunder.covers.entries address entry hentry
    simp only
    rw [hunder.unlocked hlocked, hideal.decrypt_of_seals hseals, hk]
    exact congrArg Except.ok (setPrivKey_val k)

/-- The keys that `ChangePassword` copies are the keys added. -/
theorem Under.copyKeys_eq (hlocked : ks.locked = false) (addresses : List Address)
    (hmem : ∀ address ∈ addresses, address ∈ ks.keys) :
    ∃ copies, ks.copyKeys addresses = .ok (some copies) ∧ (∀ kv ∈ copies, added kv.1 = some kv.2) ∧
      ∀ address k, address ∈ addresses → added address = some k → (address, k) ∈ copies := by
  induction addresses with
  | nil => exact ⟨[], rfl, List.forall_mem_nil _, fun _ _ h => nomatch h⟩
  | cons address rest ih =>
    obtain ⟨hfirst, hrest⟩ := List.forall_mem_cons.mp hmem
    obtain ⟨copies, hcopies, hsound, hall⟩ := ih hrest
    obtain ⟨entry, hentry⟩ := Option.isSome_iff_exists.mp (ExtTreeMap.mem_iff_isSome_getElem?.mp hfirst)
    obtain ⟨-, k, hk, -⟩ := hunder.covers.entries address entry hentry
    refine ⟨(address, k) :: copies, ?_, List.forall_mem_cons.mpr ⟨hk, hsound⟩, ?_⟩
    · rw [copyKeys, hunder.getKey_eq hideal hlocked, hk, hcopies]
      rfl
    · intro query k' hquery hk'
      rcases List.mem_cons.mp hquery with rfl | hquery
      · rw [hk] at hk'
        cases hk'
        exact List.mem_cons_self
      · exact List.mem_cons_of_mem _ (hall query k' hquery hk')

/-- The key of the password, with the salt that `Unlock` uses, sealed the entries. -/
theorem Under.saltFor (draw : Salt) :
    ∃ k, Cipher.deriveKey password (saltFor ks.salt draw).val = some k ∧ Covers k.val added ks.keys [] := by
  by_cases hsalt : ks.salt.val = []
  · obtain ⟨k, hk⟩ := hideal.derives password (CKeystore.saltFor ks.salt draw).val
    exact ⟨k, hk, hunder.covers.of_empty (hunder.salted hsalt).1 k.val⟩
  · rw [CKeystore.saltFor, if_neg hsalt]
    exact ⟨kek, hunder.derived, hunder.covers⟩

/-- The password of the keystore unlocks it, and so does any other while no key is stored. -/
theorem Under.unlock_succeeds {other : Bytes} (hother : ks.keys = ∅ ∨ other = password) (draw : Salt) :
    (ks.unlock other draw).1 = true ∧ (ks.unlock other draw).2.locked = false ∧
      ∃ k, (ks.unlock other draw).2.Under other added k := by
  obtain ⟨k, hk, hcovers⟩ : ∃ k, Cipher.deriveKey other (CKeystore.saltFor ks.salt draw).val = some k ∧
      Covers k.val added ks.keys [] := by
    rcases hother with hempty | rfl
    · obtain ⟨k, hk⟩ := hideal.derives other (CKeystore.saltFor ks.salt draw).val
      exact ⟨k, hk, hunder.covers.of_empty hempty k.val⟩
    · exact hunder.saltFor hideal draw
  rw [unlock_of_opens hk (firstOpens_of_covers hideal.toAesGcm hcovers)]
  exact ⟨rfl, rfl, k, hk, hcovers, fun _ => rfl, fun hnone => absurd hnone (saltFor_ne_nil ks.salt draw)⟩

/-- Once a key is stored no other password does. -/
theorem Under.unlock_fails (hpassword : password ∈ passwords) (hkeys : ks.keys ≠ ∅) {other : Bytes}
    (hother : other ≠ password) (draw : Salt) : ks.unlock other draw = (false, ks) := by
  have hsalt : CKeystore.saltFor ks.salt draw = ks.salt := if_neg fun hsalt => hkeys (hunder.salted hsalt).1
  rcases ks.unlock_cases other draw with ⟨k, hk, hopens, -⟩ | hunlock
  · have hne : k.val ≠ kek.val := by
      intro hsame
      rw [hsalt, Subtype.ext hsame] at hk
      exact hother (hideal.injective password hpassword other _ (hk.trans hunder.derived.symm))
    exact absurd hopens (hunder.not_firstOpens hideal.toAesGcm hpassword hkeys hne)
  · rw [hunlock, hsalt]

/-- A key added to an unlocked keystore. -/
theorem Under.addKey (hlocked : ks.locked = false) {kp : KeyPair} {k : PrivKey} (hk : kp.key = some k) (iv : IV)
    (now : UInt64) :
    ∃ ks', ks.addKey kp iv now = (.ok true, ks') ∧ ks'.locked = false ∧
      ks'.Under password (Function.update added kp.address kp.key) kek := by
  obtain ⟨-, entry, hentry, hadd⟩ := (hideal.addKey_cases ks kp iv now).resolve_left fun h => by
    rw [hlocked] at h
    exact Bool.false_ne_true h.1
  refine ⟨{ ks with keys := ks.keys.insert kp.address entry }, hadd, hlocked, hunder.derived, ?_, hunder.unlocked, ?_⟩
  · rw [hunder.unlocked hlocked, hk] at hentry
    refine hunder.covers.insert (k := k) ?_ ?_ (fun _ h => absurd h List.not_mem_nil) hentry
    · rw [Function.update_self, hk]
    · intro query hquery
      rw [Function.update_of_ne hquery]
  · intro hsalt
    have hclosed := (hunder.salted hsalt).2
    rw [hlocked] at hclosed
    cases hclosed

/-- A new password for an unlocked keystore. -/
theorem Under.rekey (hlocked : ks.locked = false) (newPassword : Bytes) (newSalt : Salt) (draw : Nat → IV × UInt64) :
    (ks.rekey newPassword newSalt draw).1 = .ok true ∧ (ks.rekey newPassword newSalt draw).2.locked = false ∧
      ∃ k, (ks.rekey newPassword newSalt draw).2.Under newPassword added k := by
  obtain ⟨copies, hcopies, hsound, hall⟩ :=
    hunder.copyKeys_eq hideal hlocked ks.getAddresses fun address => (ks.mem_getAddresses address).mp
  obtain ⟨k, hk⟩ := hideal.derives newPassword newSalt.val
  have hcovers : Covers k.val added ∅ copies := by
    refine ⟨?_, ?_⟩
    · intro address entry hentry
      simp at hentry
    · intro address k' hk'
      refine Or.inr (hall address k' ?_ hk')
      exact (ks.mem_getAddresses address).mpr ((hunder.covers.complete address k' hk').resolve_right (List.not_mem_nil))
  obtain ⟨keys, hkeys, hdone⟩ := @reencrypt_spec _ _ hideal.toAesGcm
    { ks with kek := k.val, salt := toVector sixteen_lt newSalt, keys := ∅ } _ _ draw hcovers hsound
  have hrekey : ks.rekey newPassword newSalt draw =
      (.ok true, { ks with kek := k.val, salt := toVector sixteen_lt newSalt, keys := keys }) := by
    rw [CKeystore.rekey, hcopies]
    simp only
    rw [hk]
    exact hkeys
  rw [hrekey]
  refine ⟨rfl, hlocked, k, hk, hdone, fun _ => rfl, ?_⟩
  exact fun hempty => absurd hempty (salt_ne_nil newSalt)

end CKeystore

end Ideal

/-- The keystore holds the keys added under one of the passwords, or under any while it is locked and empty. -/
def CKeystore.Held (passwords : List Bytes) (ks : CKeystore) (added : Address → Option PrivKey) : Prop :=
  ∃ password kek, (password ∈ passwords ∨ ks.keys = ∅ ∧ ks.locked = true) ∧ ks.Under password added kek

namespace CKeystore

variable {passwords : List Bytes} {ks : CKeystore} {added : Address → Option PrivKey}

theorem Held.lock (hheld : ks.Held passwords added) : ks.lock.Held passwords added := by
  obtain ⟨password, kek, hpassword, hunder⟩ := hheld
  exact ⟨password, kek, hpassword.imp_right fun h => ⟨h.1, rfl⟩, hunder.lock⟩

theorem Held.named (hheld : ks.Held passwords added) : ks.Named := by
  obtain ⟨_, _, -, hunder⟩ := hheld
  exact hunder.named

variable (hideal : IdealCipher passwords)
include hideal

theorem Held.unlock (hheld : ks.Held passwords added) {other : Bytes} (hother : other ∈ passwords) (draw : Salt) :
    (ks.unlock other draw).2.Held passwords added := by
  obtain ⟨password, kek, hpassword, hunder⟩ := hheld
  by_cases hopens : ks.keys = ∅ ∨ other = password
  · obtain ⟨-, -, k, hk⟩ := hunder.unlock_succeeds hideal hopens draw
    exact ⟨other, k, Or.inl hother, hk⟩
  · obtain ⟨hkeys, hne⟩ := not_or.mp hopens
    have hin := hpassword.resolve_right fun h => hkeys h.1
    rw [hunder.unlock_fails hideal hin hkeys hne]
    exact ⟨password, kek, hpassword, hunder⟩

theorem Held.addKey (hheld : ks.Held passwords added) {kp : KeyPair} {k : PrivKey} (hk : kp.key = some k) (iv : IV)
    (now : UInt64) :
    ks.addKey kp iv now = (.ok false, ks) ∨ ∃ ks', ks.addKey kp iv now = (.ok true, ks') ∧
      ks'.Held passwords (Function.update added kp.address kp.key) := by
  obtain ⟨password, kek, hpassword, hunder⟩ := hheld
  rcases hideal.addKey_cases ks kp iv now with ⟨-, hadd⟩ | ⟨hlocked, -⟩
  · exact Or.inl hadd
  · obtain ⟨ks', hadd, -, hunder'⟩ := hunder.addKey hideal hlocked hk iv now
    refine Or.inr ⟨ks', hadd, password, kek, Or.inl (hpassword.resolve_right fun h => ?_), hunder'⟩
    rw [hlocked] at h
    exact Bool.false_ne_true h.2

theorem Held.changePassword (hheld : ks.Held passwords added) (oldPassword : Bytes)
    {newPassword : Bytes} (hnew : newPassword ∈ passwords) (draw newSalt : Salt) (draws : Nat → IV × UInt64) :
    (ks.changePassword oldPassword newPassword draw newSalt draws).2.Held passwords added := by
  have hrekey : ∀ {ks : CKeystore} {password kek}, ks.Under password added kek → ks.locked = false →
      (ks.rekey newPassword newSalt draws).2.Held passwords added := by
    intro ks password kek hunder hlocked
    obtain ⟨-, -, k, hk⟩ := hunder.rekey hideal hlocked newPassword newSalt draws
    exact ⟨newPassword, k, Or.inl hnew, hk⟩
  obtain ⟨password, kek, hpassword, hunder⟩ := hheld
  unfold CKeystore.changePassword
  split
  · by_cases hopens : ks.keys = ∅ ∨ oldPassword = password
    · obtain ⟨htrue, hlocked, k, hk⟩ := hunder.unlock_succeeds hideal hopens draw
      rw [← Prod.eta (ks.unlock oldPassword draw), htrue]
      exact hrekey hk hlocked
    · obtain ⟨hkeys, hne⟩ := not_or.mp hopens
      have hin := hpassword.resolve_right fun h => hkeys h.1
      rw [hunder.unlock_fails hideal hin hkeys hne]
      exact ⟨password, kek, hpassword, hunder⟩
  next hlocked => exact hrekey hunder (Bool.eq_false_of_not_eq_true hlocked)

end CKeystore

end Invariant

section Run

variable [Cipher]

/-- The operations on a keystore, each with what it draws from the random source and the clock. -/
inductive KeystoreOperation where
  | unlock (password : Bytes) (draw : Salt)
  | lock
  | addKey (kp : KeyPair) (iv : IV) (now : UInt64)
  | changePassword (oldPassword newPassword : Bytes) (draw newSalt : Salt) (draws : Nat → IV × UInt64)
  | serialize
  | deserialize

/-- The passwords that an operation may put the keystore under. -/
def KeystoreOperation.passwords : KeystoreOperation → List Bytes
  | .unlock password _ => [password]
  | .changePassword _ newPassword _ _ _ => [newPassword]
  | _ => []

/-- Keys are added only when they are valid. -/
def KeystoreOperation.Valid : KeystoreOperation → Prop
  | .addKey kp _ _ => kp.key.isSome
  | _ => True

/-- A keystore and the file it was last written to, with the last key added for each
    address, and those at the time of the file. -/
structure Session where
  ks : CKeystore := {}
  file : Option Bytes := none
  added : Address → Option PrivKey := fun _ => none
  filed : Address → Option PrivKey := fun _ => none

def Session.step (s : Session) : KeystoreOperation → Session
  | .unlock password draw => { s with ks := (s.ks.unlock password draw).2 }
  | .lock => { s with ks := s.ks.lock }
  | .addKey kp iv now =>
    match s.ks.addKey kp iv now with
    | (.ok true, ks) => { s with ks := ks, added := Function.update s.added kp.address kp.key }
    | (_, ks) => { s with ks := ks }
  | .changePassword oldPassword newPassword draw newSalt draws =>
    { s with ks := (s.ks.changePassword oldPassword newPassword draw newSalt draws).2 }
  | .serialize => { s with file := some s.ks.serialize, filed := s.added }
  | .deserialize =>
    match s.file.map deserializeKeystore with
    | some (.ok ks) => { s with ks := ks, added := s.filed }
    | _ => s

def Session.run (operations : List KeystoreOperation) : Session := operations.foldl Session.step {}

/-- The addresses that an operation stores a key under. -/
def KeystoreOperation.addresses : KeystoreOperation → List Address
  | .addKey kp _ _ => [kp.address]
  | _ => []

/-- The keystore and its file hold what was added, under addresses of a list. -/
structure Session.Sound (passwords : List Bytes) (addresses : List Address) (s : Session) : Prop where
  held : s.ks.Held passwords s.added
  file : ∀ data, s.file = some data → ∃ saved : CKeystore, data = saved.serialize ∧ saved.Held passwords s.filed
  added : ∀ address k, s.added address = some k → address ∈ addresses
  filed : ∀ address k, s.filed address = some k → address ∈ addresses

theorem CKeystore.Held.size_le {passwords : List Bytes} {ks : CKeystore} {added : Address → Option PrivKey}
    (hheld : ks.Held passwords added) {addresses : List Address}
    (hadded : ∀ address k, added address = some k → address ∈ addresses) : ks.keys.size ≤ addresses.length := by
  obtain ⟨_, _, -, hunder⟩ := hheld
  refine orderedMap.size_le_length fun address hmem => ?_
  obtain ⟨entry, hentry⟩ := Option.isSome_iff_exists.mp (ExtTreeMap.mem_iff_isSome_getElem?.mp hmem)
  obtain ⟨-, k, hk, -⟩ := hunder.covers.entries address entry hentry
  exact hadded address k hk

section Steps

variable {passwords : List Bytes} {addresses : List Address} (hideal : IdealCipher passwords)
  (haddresses : addresses.length < 2 ^ 64)
include hideal haddresses

theorem Session.Sound.step {s : Session} (hsound : s.Sound passwords addresses) {op : KeystoreOperation} (hvalid : op.Valid)
    (hpasswords : ∀ password ∈ op.passwords, password ∈ passwords) (hop : ∀ address ∈ op.addresses, address ∈ addresses) :
    (s.step op).Sound passwords addresses := by
  cases op with
  | unlock password draw =>
    exact ⟨hsound.held.unlock hideal (hpasswords password List.mem_cons_self) draw, hsound.file, hsound.added, hsound.filed⟩
  | lock => exact ⟨hsound.held.lock, hsound.file, hsound.added, hsound.filed⟩
  | addKey kp iv now =>
    obtain ⟨k, hk⟩ := Option.isSome_iff_exists.mp hvalid
    rcases hsound.held.addKey hideal hk iv now with hadd | ⟨ks', hadd, hheld⟩
    · rw [Session.step, hadd]
      exact ⟨hsound.held, hsound.file, hsound.added, hsound.filed⟩
    · rw [Session.step, hadd]
      refine ⟨hheld, hsound.file, ?_, hsound.filed⟩
      intro address k' hk'
      by_cases haddress : address = kp.address
      · rw [haddress]
        exact hop _ List.mem_cons_self
      · simp only [Function.update_of_ne haddress] at hk'
        exact hsound.added address k' hk'
  | changePassword oldPassword newPassword draw newSalt draws =>
    have hnew := hpasswords newPassword List.mem_cons_self
    exact ⟨hsound.held.changePassword hideal oldPassword hnew draw newSalt draws, hsound.file, hsound.added, hsound.filed⟩
  | serialize =>
    refine ⟨hsound.held, ?_, hsound.added, hsound.added⟩
    intro data hdata
    cases hdata
    exact ⟨s.ks, rfl, hsound.held⟩
  | deserialize =>
    cases hfile : s.file with
    | none =>
      have hstay : s.step .deserialize = s := by rw [Session.step, hfile, Option.map_none]
      rwa [hstay]
    | some data =>
      obtain ⟨saved, rfl, hheld⟩ := hsound.file data hfile
      by_cases hsize : saved.keys.size ≤ 1000000
      · have hload : s.step .deserialize = { s with ks := saved.lock, added := s.filed } := by
          rw [Session.step, hfile, Option.map_some, hheld.named.deserialize_serialize hsize]
          rfl
        rw [hload]
        exact ⟨hheld.lock, hsound.file, hsound.filed, hsound.filed⟩
      · have hlarge := CKeystore.deserialize_of_large (Nat.lt_of_not_le hsize)
          ((hheld.size_le hsound.filed).trans_lt haddresses)
        have hstay : s.step .deserialize = s := by rw [Session.step, hfile, Option.map_some, hlarge]
        rwa [hstay]

theorem Session.Sound.run {s : Session} (hsound : s.Sound passwords addresses) {operations : List KeystoreOperation}
    (hvalid : ∀ op ∈ operations, op.Valid) (hpasswords : ∀ op ∈ operations, ∀ password ∈ op.passwords, password ∈ passwords)
    (hop : ∀ op ∈ operations, ∀ address ∈ op.addresses, address ∈ addresses) :
    (operations.foldl Session.step s).Sound passwords addresses := by
  induction operations generalizing s with
  | nil => exact hsound
  | cons op rest ih =>
    rw [List.forall_mem_cons] at hvalid hpasswords hop
    exact ih (hsound.step hideal haddresses hvalid.1 hpasswords.1 hop.1) hvalid.2 hpasswords.2 hop.2

omit haddresses in
theorem Session.sound_empty : Session.Sound passwords addresses {} := by
  obtain ⟨kek, hunder⟩ := CKeystore.under_empty hideal []
  refine ⟨⟨[], kek, Or.inr ⟨rfl, rfl⟩, hunder⟩, ?_, ?_, ?_⟩
  · intro data hdata
    cases hdata
  · intro address k hk
    cases hk
  · intro address k hk
    cases hk

end Steps

/-- What a keystore promises at any moment: one password for all it holds, the keys added
    while it is unlocked, and a file that brings it back locked. -/
structure Session.Coherent (s : Session) : Prop where
  password : ∃ password,
    (∀ (address : Address) (entry : EncryptedKeyEntry), s.ks.keys[address]? = some entry →
      ∃ kek plain, Cipher.deriveKey password s.ks.salt.val = some kek ∧ entry.decrypt kek.val = .ok plain) ∧
    (∀ draw, (s.ks.unlock password draw).1 = true) ∧
    (s.ks.keys ≠ ∅ → ∀ other ≠ password, ∀ draw, (s.ks.unlock other draw).1 = false)
  getKey : s.ks.locked = false → ∀ address, s.ks.getKey address = .ok (s.added address)
  restore : s.ks.keys.size ≤ 1000000 →
    deserializeKeystore s.ks.serialize = .ok { locked := true, salt := s.ks.salt, keys := s.ks.keys }

theorem Session.Sound.coherent {passwords : List Bytes} {addresses : List Address} (hideal : IdealCipher passwords)
    {s : Session} (hsound : s.Sound passwords addresses) : s.Coherent := by
  obtain ⟨password, kek, hpassword, hunder⟩ := hsound.held
  refine ⟨⟨password, ?_, ?_, ?_⟩, hunder.getKey_eq hideal, hunder.named.deserialize_serialize⟩
  · intro address entry hentry
    obtain ⟨-, k, -, hseals⟩ := hunder.covers.entries address entry hentry
    exact ⟨kek, k.val, hunder.derived, hideal.decrypt_of_seals hseals⟩
  · exact fun draw => (hunder.unlock_succeeds hideal (Or.inr rfl) draw).1
  · intro hkeys other hother draw
    have hin := hpassword.resolve_right fun h => hkeys h.1
    rw [hunder.unlock_fails hideal hin hkeys hother]

/-- After any operations on an empty keystore, saved and loaded as well, it is coherent. -/
theorem run_coherent {operations : List KeystoreOperation}
    (hideal : IdealCipher (operations.flatMap KeystoreOperation.passwords)) (hvalid : ∀ op ∈ operations, op.Valid)
    (hlength : (operations.flatMap KeystoreOperation.addresses).length < 2 ^ 64) : (Session.run operations).Coherent := by
  refine Session.Sound.coherent hideal (Session.Sound.run hideal hlength (Session.sound_empty hideal) hvalid ?_ ?_)
  · exact fun op hop password hpassword => List.mem_flatMap.mpr ⟨op, hop, hpassword⟩
  · exact fun op hop address haddress => List.mem_flatMap.mpr ⟨op, hop, haddress⟩

end Run

section

/-- Keys and tags with a mark. -/
def markedKey (mark : UInt8) : Bytes32 := ⟨List.replicate 32 mark, List.length_replicate⟩

def markedTag (mark : UInt8) : Tag := ⟨List.replicate 16 mark, List.length_replicate⟩

/-- The mark of the tags under a key: two keys have one of their own. -/
def tagMark (key : Bytes) : UInt8 := if key = (markedKey 0).val then 0 else if key = (markedKey 1).val then 1 else 2

theorem thirtyTwo_lt : 32 < 2 ^ 64 := by decide

def passwordMark (password : Bytes) : UInt8 :=
  if password = ascii "alpha" then 0 else if password = ascii "beta" then 1 else 2

/-- A cipher for two passwords: the tag says which key encrypted. -/
@[reducible]
def markedCipher : Cipher where
  deriveKey password _ := some (markedKey (passwordMark password))
  aesEncrypt key plain _ := .ok (toVector thirtyTwo_lt plain, markedTag (tagMark key))
  aesDecrypt key cipher _ tag :=
    if tag = (markedTag (tagMark key)).val then .ok cipher else .error "AES-256-GCM decrypt failed (wrong password?)"

attribute [local instance] markedCipher

theorem markedTag_ne {a b : UInt8} (hne : a ≠ b) : (markedTag a).val ≠ (markedTag b).val := by
  intro hsame
  have hhead : (List.replicate 16 a).head? = (List.replicate 16 b).head? := congrArg List.head? hsame
  exact hne (Option.some.inj hhead)

theorem tagMark_ne {mark : UInt8} (hmark : mark = 0 ∨ mark = 1) {other : Bytes} (hother : other ≠ (markedKey mark).val) :
    tagMark (markedKey mark).val ≠ tagMark other := by
  rcases hmark with rfl | rfl
  · rw [tagMark, if_pos rfl, tagMark, if_neg hother]
    split <;> decide
  · rw [tagMark, if_neg (by decide), if_pos rfl, tagMark, if_neg hother]
    split <;> decide

theorem passwordMark_of_mem {password : Bytes} (hpassword : password ∈ [ascii "alpha", ascii "beta", ascii "beta"]) :
    passwordMark password = 0 ∨ passwordMark password = 1 := by
  simp only [List.mem_cons, List.not_mem_nil, or_false, or_self] at hpassword
  rcases hpassword with rfl | rfl <;> decide

theorem eq_of_passwordMark {password other : Bytes} (hpassword : password ∈ [ascii "alpha", ascii "beta", ascii "beta"])
    (hsame : passwordMark other = passwordMark password) : other = password := by
  simp only [List.mem_cons, List.not_mem_nil, or_false, or_self] at hpassword
  rcases hpassword with rfl | rfl
  · rw [show passwordMark (ascii "alpha") = 0 by decide, passwordMark] at hsame
    split at hsame
    · assumption
    · split at hsame <;> cases hsame
  · rw [show passwordMark (ascii "beta") = 1 by decide, passwordMark] at hsame
    split at hsame
    · cases hsame
    · split at hsame
      · assumption
      · cases hsame

def zeroIV : IV := ⟨List.replicate 12 0, List.length_replicate⟩

theorem ideal_markedCipher : IdealCipher [ascii "alpha", ascii "beta", ascii "beta"] where
  derives := fun _ _ => ⟨_, rfl⟩
  encrypts := fun _ _ _ => ⟨_, rfl⟩
  decrypts := by
    rintro key plain iv sealed hsealed
    cases hsealed
    exact if_pos rfl
  authentic := by
    intro password hpassword salt key hkey plain iv sealed hsealed other hother
    cases hsealed
    cases hkey
    exact ⟨_, if_neg (markedTag_ne (tagMark_ne (passwordMark_of_mem hpassword) hother))⟩
  injective := by
    intro password hpassword other salt hsame
    have hhead : (List.replicate 32 (passwordMark other)).head? = (List.replicate 32 (passwordMark password)).head? :=
      congrArg (fun key => key.bind fun key : Bytes32 => key.val.head?) hsame
    exact eq_of_passwordMark hpassword (Option.some.inj hhead)

theorem aes_markedCipher : AesGcm [] := (ideal_markedCipher.mono (List.nil_subset _)).toAesGcm

/-- A key is added, the password changed, the keystore saved, loaded and unlocked. -/
def savedSession (k : PrivKey) (address : Address) : List KeystoreOperation :=
  [.unlock (ascii "alpha") (markedTag 7), .addKey ⟨some k, address⟩ zeroIV 1,
    .changePassword (ascii "alpha") (ascii "beta") (markedTag 8) (markedTag 9) (fun _ => (zeroIV, 2)), .serialize,
    .deserialize, .unlock (ascii "beta") (markedTag 10)]

theorem run_coherent_saved : IdealCipher ((savedSession oneKey emptyAddress).flatMap KeystoreOperation.passwords) ∧
    (∀ op ∈ savedSession oneKey emptyAddress, op.Valid) ∧
    ((savedSession oneKey emptyAddress).flatMap KeystoreOperation.addresses).length < 2 ^ 64 ∧
    (Session.run (savedSession oneKey emptyAddress)).Coherent ∧
    (Session.run (savedSession oneKey emptyAddress)).ks.getKey emptyAddress = .ok (some oneKey) := by
  have hideal : IdealCipher ((savedSession oneKey emptyAddress).flatMap KeystoreOperation.passwords) := ideal_markedCipher
  have hvalid : ∀ op ∈ savedSession oneKey emptyAddress, op.Valid := by simp [savedSession, KeystoreOperation.Valid]
  have hlength : ((savedSession oneKey emptyAddress).flatMap KeystoreOperation.addresses).length < 2 ^ 64 := by decide
  have hcoherent := run_coherent hideal hvalid hlength
  exact ⟨hideal, hvalid, hlength, hcoherent, hcoherent.getKey (by decide +kernel) emptyAddress⟩

end

end cdx
