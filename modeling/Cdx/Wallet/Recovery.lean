import Cdx.Wallet.Keystore

namespace cdx

open Std (ExtTreeMap)

namespace CKeystore

/-- The key in use, or the one that was in use before. -/
def lastKey (ks : CKeystore) (key : Bytes) : Bytes := if ks.locked then key else ks.kek

theorem kek_of_lastKey {ks : CKeystore} {key : Bytes} (hlast : ks.lastKey key = key) (hlocked : ks.locked = false) :
    ks.kek = key := by
  rwa [lastKey, hlocked, if_neg Bool.false_ne_true] at hlast

theorem lastKey_lastKey (ks : CKeystore) (key : Bytes) : ks.lastKey (ks.lastKey key) = ks.lastKey key := by
  unfold lastKey
  split <;> rfl

end CKeystore

section Recover

variable [Crypto] [Secp256k1] [Cipher]

/-- The address encodes the hash of the public key. -/
def PrivKey.Owns (k : PrivKey) (address : Address) : Prop := ∃ v, decodeAddress address.bytes = some (v, k.hash160)

omit [Cipher] in
theorem PrivKey.owns_pair (k : PrivKey) (versionByte : UInt8) : k.Owns (k.pair versionByte).address :=
  ⟨versionByte, decodeAddress_hash160ToAddress k.hash160 versionByte⟩

namespace CKeystore

/-- `GetKey` returns the private key of the address. -/
def Recovers (ks : CKeystore) (address : Address) : Prop := ∃ k, ks.getKey address = .ok (some k) ∧ k.Owns address

/-- The address is stored, and its key is to be had while the keystore is unlocked and after every `Unlock` that succeeds
    with this key. -/
def Keeps (ks : CKeystore) (key : Bytes) (address : Address) : Prop :=
  address ∈ ks.keys ∧ (ks.locked = false → ks.Recovers address) ∧
    ∀ password draw k, Cipher.deriveKey password (saltFor ks.salt draw).val = some k → k.val = key →
      (ks.unlock password draw).1 = true → (ks.unlock password draw).2.Recovers address

/-- The entry of the address decrypts to its private key. -/
def Holds (ks : CKeystore) (kek : Bytes) (address : Address) : Prop :=
  ∃ entry k, ks.keys[address]? = some entry ∧ entry.decrypt kek = .ok k.val ∧ PrivKey.Owns k address

theorem recovers_iff {ks : CKeystore} (hlocked : ks.locked = false) (address : Address) :
    ks.Recovers address ↔ ks.Holds ks.kek address := by
  simp only [Recovers, Holds, getKey_eq_some_iff hlocked]
  constructor
  · rintro ⟨k, ⟨entry, hentry, hdecrypt⟩, howns⟩
    exact ⟨entry, k, hentry, hdecrypt, howns⟩
  · rintro ⟨entry, k, hentry, hdecrypt, howns⟩
    exact ⟨k, ⟨entry, hentry, hdecrypt⟩, howns⟩

/-- The keystore may come to be unlocked with this key. -/
def Reopens (ks : CKeystore) (key : Bytes) : Prop :=
  ks.FirstOpens key ∧ ∃ password draw k, Cipher.deriveKey password (saltFor ks.salt draw).val = some k ∧ k.val = key

/-- A kept address is held under the key in use and under the one that may come to be used. -/
theorem keeps_iff (ks : CKeystore) (key : Bytes) (address : Address) :
    ks.Keeps key address ↔ address ∈ ks.keys ∧ (ks.locked = false → ks.Holds ks.kek address) ∧
      (ks.Reopens key → ks.Holds key address) := by
  refine and_congr_right fun _ => and_congr (forall_congr' fun hlocked => recovers_iff hlocked address) ?_
  constructor
  · rintro hlater ⟨hopens, password, draw, k, hk, rfl⟩
    have hunlock := hlater password draw k hk rfl
    rw [unlock_of_opens hk hopens] at hunlock
    exact (recovers_iff rfl address).mp (hunlock rfl)
  · intro hholds password draw k hk hkey htrue
    rcases ks.unlock_cases password draw with ⟨k', hk', hopens, hunlock⟩ | hunlock
    · obtain rfl := Option.some.inj (hk.symm.trans hk')
      rw [hkey] at hopens
      rw [hunlock, recovers_iff rfl]
      simp only [hkey]
      exact hholds ⟨hopens, password, draw, k, hk, hkey⟩
    · rw [hunlock] at htrue
      cases htrue

variable {ks : CKeystore} {key : Bytes} {address : Address}

/-- If the key is the one in use, what it holds is what is kept. -/
theorem keeps_iff_holds (hlocked : ks.locked = false) (hkey : ks.kek = key) : ks.Keeps key address ↔ ks.Holds key address := by
  rw [keeps_iff]
  constructor
  · rintro ⟨-, hnow, -⟩
    rw [← hkey]
    exact hnow hlocked
  · intro hholds
    obtain ⟨entry, k, hentry, -⟩ := id hholds
    refine ⟨ExtTreeMap.mem_iff_isSome_getElem?.mpr (hentry ▸ rfl), fun _ => ?_, fun _ => hholds⟩
    rwa [hkey]

theorem keeps_keys_iff (hlocked : ks.locked = false) (hkey : ks.kek = key) (keys : ExtTreeMap Address EncryptedKeyEntry) :
    Keeps { ks with keys := keys } key address ↔ Holds { ks with keys := keys } key address :=
  @keeps_iff_holds _ _ _ _ key address hlocked hkey

theorem Keeps.lock (hkeeps : ks.Keeps key address) : ks.lock.Keeps key address := by
  rw [keeps_iff] at hkeeps ⊢
  exact ⟨hkeeps.1, fun hlocked => absurd hlocked.symm Bool.false_ne_true, hkeeps.2.2⟩

/-- An `Unlock` that succeeds must be one with the key that was in use before. -/
def RightPassword (ks : CKeystore) (key password : Bytes) (draw : Salt) : Prop :=
  ∀ k, Cipher.deriveKey password (saltFor ks.salt draw).val = some k → ks.FirstOpens k.val → k.val = key

theorem Keeps.unlock (hkeeps : ks.Keeps key address) (hlast : ks.lastKey key = key) {password : Bytes} {draw : Salt}
    (hright : ks.RightPassword key password draw) :
    (ks.unlock password draw).2.lastKey key = key ∧ (ks.unlock password draw).2.Keeps key address := by
  rw [keeps_iff] at hkeeps
  obtain ⟨hmem, hnow, hlater⟩ := hkeeps
  rcases ks.unlock_cases password draw with ⟨k, hk, hopens, hunlock⟩ | hunlock
  · obtain rfl := hright k hk hopens
    rw [hunlock]
    exact ⟨rfl, (keeps_iff_holds rfl rfl).mpr (hlater ⟨hopens, password, draw, k, hk, rfl⟩)⟩
  · rw [hunlock]
    refine ⟨hlast, (keeps_iff _ _ _).mpr ⟨hmem, hnow, ?_⟩⟩
    rintro ⟨hopens, other, draw', k, hk, hkey⟩
    simp only [saltFor_saltFor] at hk
    exact hlater ⟨hopens, other, draw, k, hk, hkey⟩

variable (haes : AesGcm [])
include haes

/-- What a new entry holds. -/
theorem holds_insert_self {plain : Bytes32} {iv : IV} {now : UInt64} {entry : EncryptedKeyEntry}
    (hentry : encryptEntry ks.kek address plain iv now = .ok entry) :
    Holds { ks with keys := ks.keys.insert address entry } ks.kek address ↔
      ∃ k : PrivKey, plain.val = k.val ∧ k.Owns address := by
  simp only [Holds, orderedMap.lookup_insert, if_true, Option.some.injEq, exists_and_left, exists_eq_left',
    haes.decrypt_encryptEntry hentry, Except.ok.injEq]

omit haes in
theorem holds_insert_of_ne {other : Address} (hne : other ≠ address) (entry : EncryptedKeyEntry) (kek : Bytes) :
    Holds { ks with keys := ks.keys.insert address entry } kek other ↔ ks.Holds kek other := by
  simp only [Holds, orderedMap.lookup_insert, if_neg hne]

omit [Crypto] [Secp256k1] in
theorem lastKey_addKey (kp : KeyPair) (iv : IV) (now : UInt64) : (ks.addKey kp iv now).2.lastKey key = ks.lastKey key := by
  rcases haes.addKey_cases ks kp iv now with ⟨-, hadd⟩ | ⟨-, entry, -, hadd⟩
  · rw [hadd]
  · rw [hadd]
    rfl

/-- What an unlocked keystore keeps of an address that a key is added for. -/
theorem keeps_addKey_self (hlocked : ks.locked = false) (hkey : ks.kek = key) (kp : KeyPair) (iv : IV) (now : UInt64) :
    (ks.addKey kp iv now).2.Keeps key kp.address ↔ ∃ k, kp.key = some k ∧ k.Owns kp.address := by
  rcases haes.addKey_cases ks kp iv now with ⟨htrue, -⟩ | ⟨-, entry, hentry, hadd⟩
  · rw [hlocked] at htrue
    cases htrue
  · subst hkey
    rw [hadd, keeps_keys_iff hlocked rfl, holds_insert_self haes hentry]
    simp only [getPrivKey_eq_iff]

/-- What is kept of the others. -/
theorem Keeps.addKey (hkeeps : ks.Keeps key address) (hlast : ks.lastKey key = key) {kp : KeyPair} (hne : address ≠ kp.address)
    (iv : IV) (now : UInt64) : (ks.addKey kp iv now).2.Keeps key address := by
  rcases haes.addKey_cases ks kp iv now with ⟨-, hadd⟩ | ⟨hlocked, entry, hentry, hadd⟩
  · rwa [hadd]
  · have hkey := kek_of_lastKey hlast hlocked
    rw [hadd, keeps_keys_iff hlocked hkey, holds_insert_of_ne hne]
    exact (keeps_iff_holds hlocked hkey).mp hkeeps

/-- Among addresses that are kept, `AddKey` can spoil the one it stores under. -/
theorem keeps_addKey_iff (hlast : ks.lastKey key = key) {issued : List Address}
    (hkept : ∀ address ∈ issued, ks.Keeps key address) (kp : KeyPair) (iv : IV) (now : UInt64) :
    (∀ address ∈ issued, (ks.addKey kp iv now).2.Keeps key address) ↔
      (ks.locked = false → kp.address ∈ issued → ∃ k, kp.key = some k ∧ k.Owns kp.address) := by
  constructor
  · exact fun hall hlocked hmem =>
      (keeps_addKey_self haes hlocked (kek_of_lastKey hlast hlocked) kp iv now).mp (hall kp.address hmem)
  · intro hmatch address hmem
    by_cases hsame : address = kp.address
    · subst hsame
      rcases haes.addKey_cases ks kp iv now with ⟨-, hadd⟩ | ⟨hlocked, -⟩
      · rw [hadd]
        exact hkept kp.address hmem
      · exact (keeps_addKey_self haes hlocked (kek_of_lastKey hlast hlocked) kp iv now).mpr (hmatch hlocked hmem)
    · exact (hkept address hmem).addKey haes hlast hsame iv now

/-- The last loop of `ChangePassword` holds the addresses copied beside those it held. -/
theorem holds_reencrypt (hlocked : ks.locked = false) {copies : List (Address × PrivKey)} (draw : Nat → IV × UInt64) :
    (ks.reencrypt copies draw).2.locked = false ∧ (ks.reencrypt copies draw).2.kek = ks.kek ∧
      ∀ address, (∀ kv ∈ copies, kv.1 = address → PrivKey.Owns kv.2 address) →
        ks.Holds ks.kek address ∨ address ∈ copies.map Prod.fst → (ks.reencrypt copies draw).2.Holds ks.kek address := by
  induction copies generalizing ks draw with
  | nil =>
    refine ⟨hlocked, rfl, ?_⟩
    rintro address - (hholds | hmem)
    · exact hholds
    · exact absurd hmem List.not_mem_nil
  | cons kv rest ih =>
    obtain ⟨first, k⟩ := kv
    obtain ⟨entry, hentry⟩ := haes.encryptEntry_ok ks.kek first (getPrivKey (some k)) (draw 0).1 (draw 0).2
    have hrest := @ih { ks with keys := ks.keys.insert first entry } hlocked fun i => draw (i + 1)
    obtain ⟨hlocked', hkek, hholds⟩ := hrest
    rw [CKeystore.reencrypt, hentry]
    refine ⟨hlocked', hkek, ?_⟩
    intro address howns hor
    rw [List.forall_mem_cons] at howns
    refine hholds address howns.2 ?_
    by_cases hsame : address = first
    · subst hsame
      exact Or.inl ((holds_insert_self haes hentry).mpr ⟨k, rfl, howns.1 rfl⟩)
    · refine hor.imp (holds_insert_of_ne hsame entry ks.kek).mpr fun hmem => ?_
      exact (List.mem_cons.mp hmem).resolve_left hsame

/-- `ChangePassword` of an unlocked keystore keeps what it has, under the key that is in use then. -/
theorem Keeps.rekey (hkeeps : ks.Keeps key address) (hlocked : ks.locked = false) (hkey : ks.kek = key) (newPassword : Bytes)
    (newSalt : Salt) (draw : Nat → IV × UInt64) :
    (ks.rekey newPassword newSalt draw).2.Keeps ((ks.rekey newPassword newSalt draw).2.lastKey key) address := by
  have hlock : ks.lock.Keeps (ks.lock.lastKey key) address := hkeeps.lock
  unfold CKeystore.rekey
  split
  · have hsame : ks.lastKey key = key := by rw [lastKey, hlocked, if_neg Bool.false_ne_true, hkey]
    simp only [hsame]
    exact hkeeps
  · exact hlock
  next copies hcopies =>
    split
    · exact hlock
    next newKek hkek =>
      obtain ⟨hfirst, hsound⟩ := copyKeys_spec hcopies
      obtain ⟨hlocked', hkek', hholds⟩ := @holds_reencrypt _ _ _
        { ks with kek := newKek.val, salt := toVector sixteen_lt newSalt, keys := ∅ } haes hlocked copies draw
      rw [lastKey, hlocked', if_neg Bool.false_ne_true, keeps_iff_holds hlocked' rfl, hkek']
      obtain ⟨hmem, hrecovers, -⟩ := hkeeps
      refine hholds address ?_ (Or.inr ?_)
      · rintro kv hkv rfl
        obtain ⟨k, hk, howns⟩ := hrecovers hlocked
        rw [hsound kv hkv] at hk
        cases hk
        exact howns
      · rw [hfirst]
        exact (ks.mem_getAddresses address).mpr hmem

theorem Keeps.changePassword (hkeeps : ks.Keeps key address) (hlast : ks.lastKey key = key) {oldPassword : Bytes} {draw : Salt}
    (hright : ks.locked = true → ks.RightPassword key oldPassword draw) (newPassword : Bytes) (newSalt : Salt)
    (draws : Nat → IV × UInt64) :
    (ks.changePassword oldPassword newPassword draw newSalt draws).2.Keeps
      ((ks.changePassword oldPassword newPassword draw newSalt draws).2.lastKey key) address := by
  unfold CKeystore.changePassword
  split
  next hlocked =>
    obtain ⟨hlast', hkept⟩ := hkeeps.unlock hlast (hright hlocked)
    rcases ks.unlock_cases oldPassword draw with ⟨k, -, -, hunlock⟩ | hunlock
    · rw [hunlock] at hlast' hkept ⊢
      exact hkept.rekey haes rfl (kek_of_lastKey hlast' rfl) newPassword newSalt draws
    · rw [hunlock] at hlast' hkept ⊢
      simp only [hlast']
      exact hkept
  next hlocked =>
    have hunlocked := Bool.eq_false_of_not_eq_true hlocked
    exact hkeeps.rekey haes hunlocked (kek_of_lastKey hlast hunlocked) newPassword newSalt draws

end CKeystore

end Recover

end cdx
