import Cdx.Wallet.Coherence
import Cdx.Wallet.Wallet

namespace cdx

open codec
open Std (ExtTreeMap)

section Format

def BACKUP_MAGIC : Bytes := ascii "CDXB"

/-- A key of a backup, encrypted. -/
structure BackupEntry where
  address : Address
  ciphertext : ByteVector
  iv : ByteVector
  tag : ByteVector

def serializeBackupEntry (e : BackupEntry) : Bytes :=
  writeAddress e.address ++ (writeVarStr e.ciphertext ++ (writeVarStr e.iv ++ writeVarStr e.tag))

def readBackupEntry : Reader BackupEntry := do
  let address ← readAddress
  let ciphertext ← readVarStr
  let iv ← readVarStr
  let tag ← readVarStr
  pure { address, ciphertext, iv, tag }

theorem reads_backupEntry (e : BackupEntry) : Reads readBackupEntry (serializeBackupEntry e) e := by
  refine (reads_address e.address).bind ((reads_varStr e.ciphertext).bind ((reads_varStr e.iv).bind ?_))
  exact (reads_varStr e.tag).bind_pure _

def encodeBackup (salt : ByteVector) (entries : List BackupEntry) : Bytes :=
  BACKUP_MAGIC ++ ([1] ++ (writeVarStr salt ++ (writeVarInt entries.length ++ entries.flatMap serializeBackupEntry)))

/-- The salt and the number of keys of a backup. -/
def readBackupHead : Labelled UInt8 String (ByteVector × Nat) := do
  label "invalid backup file" (exactly BACKUP_MAGIC)
  label "unsupported backup version" (exactly [1])
  let salt ← label "corrupt backup" readVarStr
  let n ← label "corrupt backup" readKeyCount
  pure (salt, n)

theorem accepts_backupHead (salt : ByteVector) {n : Nat} (hn : n ≤ 1000000) :
    Accepts readBackupHead (BACKUP_MAGIC ++ ([1] ++ (writeVarStr salt ++ writeVarInt n))) (salt, n) := by
  refine ((reads_exactly BACKUP_MAGIC).label _).bind (((reads_exactly [1]).label _).bind ?_)
  exact ((reads_varStr salt).label _).bind (((reads_keyCount hn).label _).bind_pure fun n => (salt, n))

end Format

section Operations

variable [Crypto] [Secp256k1] [Cipher]

namespace CWallet

/-- The keys of a backup. An address whose key cannot be had is left out. -/
def collectKeys (w : CWallet) : List Address → Except String (List (Address × PrivKey))
  | [] => .ok []
  | address :: rest =>
    match w.keystore.getKey address with
    | .error e => .error e
    | .ok none => w.collectKeys rest
    | .ok (some k) => (w.collectKeys rest).map fun keys => (address, k) :: keys

/-- The loop of `Backup` that encrypts the keys. -/
def sealKeys (kek : Bytes32) : List (Address × PrivKey) → (Nat → IV) → Except String (List BackupEntry)
  | [], _ => .ok []
  | (address, k) :: rest, ivs =>
    match Cipher.aesEncrypt kek.val (getPrivKey (some k)) (ivs 0) with
    | .error _ => .error "backup encrypt failed"
    | .ok sealed =>
      (sealKeys kek rest fun i => ivs (i + 1)).map fun entries =>
        { address := address, ciphertext := sealed.1, iv := toVector twelve_lt (ivs 0),
          tag := toVector sixteen_lt sealed.2 } :: entries

def backup (w : CWallet) (password : Bytes) (salt : Salt) (ivs : Nat → IV) : Except String Bytes :=
  match w.collectKeys w.keystore.getAddresses with
  | .error e => .error e
  | .ok keys =>
    match Cipher.deriveKey password salt.val with
    | none => .error "KDF failed"
    | some kek => (sealKeys kek keys ivs).map (encodeBackup (toVector sixteen_lt salt))

/-- What `Restore` draws for one key. -/
structure RestoreDraw where
  salt : Salt
  retrySalt : Salt
  iv : IV
  now : UInt64

/-- A key of the backup goes into the wallet when its address is the one that is stored with it,
    and is left out silently otherwise. -/
def restoreKey (w : CWallet) (password : Bytes) (address : Address) (kp : KeyPair) (draw : RestoreDraw) :
    Except String CWallet :=
  if kp.key.isSome ∧ kp.address = address then
    let ks := match w.keystore.unlock password draw.salt with
      | (true, ks) => ks
      | (false, ks) => (ks.unlock password draw.retrySalt).2
    match { w with keystore := ks }.importKey kp draw.iv draw.now with
    | (.error e, _) => .error e
    | (.ok _, w) => .ok w
  else .ok w

/-- The loop of `Restore`: the wallet and the error that it reports. Only at its end the wallet is locked. -/
def restoreEntries (password : Bytes) (kek : Bytes32) :
    Nat → (Nat → RestoreDraw) → CDeserializer → CWallet → Except String (CWallet × Option String)
  | 0, _, _, w => .ok ({ w with keystore := w.keystore.lock }, none)
  | n + 1, draw, d, w =>
    match readBackupEntry.run d with
    | none => .ok (w, some "corrupt backup entry")
    | some (e, d) =>
      match Cipher.aesDecrypt kek.val e.ciphertext.val e.iv.val e.tag.val with
      | .error _ => .ok (w, some "wrong password or corrupt backup")
      | .ok plain =>
        if plain.length ≠ 32 then .ok (w, some "corrupt private key in backup")
        else
          match w.restoreKey password e.address (fromPrivKey plain w.versionByte) (draw 0) with
          | .error e => .error e
          | .ok w => restoreEntries password kek n (fun i => draw (i + 1)) d w

/-- `Restore`, into a new wallet. -/
def restore (data password : Bytes) (draw : Nat → RestoreDraw) : Except String (CWallet × Option String) :=
  match readBackupHead.run ⟨data, 0⟩ with
  | .error e => .ok ({}, some e)
  | .ok ((salt, n), d) =>
    match Cipher.deriveKey password salt.val with
    | none => .ok ({}, some "KDF failed")
    | some kek => restoreEntries password kek n draw d {}

end CWallet

end Operations

section Restored

variable [Crypto] [Secp256k1]

/-- The keys that `Restore` puts into the wallet, the last one for each address. -/
def restoredKeys (added : Address → Option PrivKey) (copies : List (Address × PrivKey)) : Address → Option PrivKey :=
  copies.foldl (fun added kv => if (kv.2.pair 0x1E).address = kv.1 then Function.update added kv.1 (some kv.2) else added)
    added

/-- Keys under their addresses of the default version all come back. -/
theorem restoredKeys_of_default {copies : List (Address × PrivKey)} (stored : Address → Option PrivKey)
    (hstored : ∀ kv ∈ copies, stored kv.1 = some kv.2) (hown : ∀ kv ∈ copies, (kv.2.pair 0x1E).address = kv.1)
    (added : Address → Option PrivKey) (address : Address) :
    restoredKeys added copies address = if address ∈ copies.map Prod.fst then stored address else added address := by
  induction copies generalizing added with
  | nil => rfl
  | cons kv rest ih =>
    obtain ⟨hkv, hrest⟩ := List.forall_mem_cons.mp hstored
    obtain ⟨hkvOwn, hrestOwn⟩ := List.forall_mem_cons.mp hown
    rw [restoredKeys, List.foldl_cons, if_pos hkvOwn]
    rw [show rest.foldl _ _ = restoredKeys (Function.update added kv.1 (some kv.2)) rest from rfl, ih hrest hrestOwn]
    by_cases hmem : address ∈ rest.map Prod.fst
    · rw [if_pos hmem, List.map_cons, if_pos (List.mem_cons_of_mem _ hmem)]
    · rw [if_neg hmem]
      by_cases haddress : address = kv.1
      · subst haddress
        rw [Function.update_self, List.map_cons, if_pos List.mem_cons_self, hkv]
      · rw [Function.update_of_ne haddress, List.map_cons, if_neg (by simp [haddress, hmem])]

/-- Keys under other addresses do not come back at all. -/
theorem restoredKeys_of_other {copies : List (Address × PrivKey)} (hother : ∀ kv ∈ copies, (kv.2.pair 0x1E).address ≠ kv.1)
    (added : Address → Option PrivKey) : restoredKeys added copies = added := by
  induction copies with
  | nil => rfl
  | cons kv rest ih =>
    obtain ⟨hkv, hrest⟩ := List.forall_mem_cons.mp hother
    rw [restoredKeys, List.foldl_cons, if_neg hkv]
    exact ih hrest

end Restored

section RoundTrip

variable [Crypto] [Secp256k1] [Cipher]

/-- The entry opens to the key, under the key-encryption key of the backup. -/
def BackupEntry.Opens (kek : Bytes32) (kv : Address × PrivKey) (e : BackupEntry) : Prop :=
  e.address = kv.1 ∧ Cipher.aesDecrypt kek.val e.ciphertext.val e.iv.val e.tag.val = .ok kv.2.val

variable (hideal : IdealCipher [])
include hideal

omit [Crypto] [Secp256k1] in
theorem sealKeys_spec (kek : Bytes32) (copies : List (Address × PrivKey)) (ivs : Nat → IV) :
    ∃ entries, CWallet.sealKeys kek copies ivs = .ok entries ∧ List.Forall₂ (BackupEntry.Opens kek) copies entries := by
  induction copies generalizing ivs with
  | nil => exact ⟨[], rfl, List.Forall₂.nil⟩
  | cons kv rest ih =>
    obtain ⟨address, k⟩ := kv
    obtain ⟨entries, hentries, hopens⟩ := ih fun i => ivs (i + 1)
    obtain ⟨sealed, hsealed⟩ := hideal.encrypts kek.val (getPrivKey (some k)) (ivs 0)
    rw [CWallet.sealKeys, hsealed]
    simp only
    rw [hentries]
    exact ⟨_, rfl, List.Forall₂.cons ⟨rfl, hideal.decrypts _ _ _ _ hsealed⟩ hopens⟩

/-- One key of `Restore`. -/
theorem restoreKey_spec {w : CWallet} {password : Bytes} {added : Address → Option PrivKey} {kek : Bytes32}
    (hversion : w.versionByte = 0x1E) (hunder : w.keystore.Under password added kek) (kv : Address × PrivKey)
    (draw : CWallet.RestoreDraw) :
    ∃ w', w.restoreKey password kv.1 (fromPrivKey kv.2.val w.versionByte) draw = .ok w' ∧ w'.versionByte = 0x1E ∧
      ∃ kek', w'.keystore.Under password (restoredKeys added [kv]) kek' := by
  rw [fromPrivKey_val, hversion]
  by_cases haddress : (kv.2.pair 0x1E).address = kv.1
  · obtain ⟨hopen, hlocked, kek', hunder'⟩ := hunder.unlock_succeeds hideal (Or.inr rfl) draw.salt
    have hkey : (kv.2.pair 0x1E).key = some kv.2 := rfl
    obtain ⟨ks', hadd, -, hdone⟩ := hunder'.addKey hideal hlocked hkey draw.iv draw.now
    refine ⟨{ w with keystore := ks' }, ?_, hversion, kek', ?_⟩
    · rw [CWallet.restoreKey, if_pos ⟨rfl, haddress⟩, ← Prod.eta (w.keystore.unlock password draw.salt), hopen]
      simp only [CWallet.importKey]
      rw [if_neg (pair_address_ne_nil _ _), hadd]
    · rw [restoredKeys, List.foldl_cons, List.foldl_nil, if_pos haddress, ← haddress]
      exact hdone
  · refine ⟨w, ?_, hversion, kek, ?_⟩
    · rw [CWallet.restoreKey, if_neg fun h => haddress h.2]
    · rwa [restoredKeys, List.foldl_cons, List.foldl_nil, if_neg haddress]

/-- All keys of `Restore`. -/
theorem restoreEntries_spec {kek : Bytes32} {copies : List (Address × PrivKey)} {entries : List BackupEntry}
    (hopens : List.Forall₂ (BackupEntry.Opens kek) copies entries) {w : CWallet} {password : Bytes}
    {added : Address → Option PrivKey} {kek' : Bytes32} (hversion : w.versionByte = 0x1E)
    (hunder : w.keystore.Under password added kek') (draw : Nat → CWallet.RestoreDraw) (before : Bytes) :
    ∃ w', CWallet.restoreEntries password kek entries.length draw
        ⟨before ++ entries.flatMap serializeBackupEntry, before.length⟩ w = .ok (w', none) ∧
      ∃ kek', w'.keystore.Under password (restoredKeys added copies) kek' := by
  induction hopens generalizing w added kek' draw before with
  | nil => exact ⟨{ w with keystore := w.keystore.lock }, rfl, kek', hunder.lock⟩
  | @cons kv e copies entries hfirst hrest ih =>
    obtain ⟨haddress, hdecrypt⟩ := hfirst
    obtain ⟨w', hkey, hversion', kek'', hunder'⟩ := restoreKey_spec hideal hversion hunder kv (draw 0)
    obtain ⟨final, hfinal, hdone⟩ := ih hversion' hunder' (fun i => draw (i + 1)) (before ++ serializeBackupEntry e)
    refine ⟨final, ?_, hdone⟩
    rw [List.length_cons, CWallet.restoreEntries, List.flatMap_cons,
      reads_backupEntry e before (entries.flatMap serializeBackupEntry)]
    simp only
    rw [hdecrypt]
    simp only
    rw [if_neg (not_not.mpr kv.2.length_eq), haddress, hkey]
    simp only
    rw [← List.append_assoc, ← List.length_append]
    exact hfinal

omit hideal in
omit [Crypto] [Secp256k1] in
/-- Every key that can be had is collected. -/
theorem collectKeys_spec {w : CWallet} {addresses : List Address}
    (hkeys : ∀ address ∈ addresses, ∃ k, w.keystore.getKey address = .ok (some k)) :
    ∃ copies, w.collectKeys addresses = .ok copies ∧ copies.map Prod.fst = addresses ∧
      ∀ kv ∈ copies, w.keystore.getKey kv.1 = .ok (some kv.2) := by
  induction addresses with
  | nil => exact ⟨[], rfl, rfl, List.forall_mem_nil _⟩
  | cons address rest ih =>
    obtain ⟨⟨k, hk⟩, hrest⟩ := List.forall_mem_cons.mp hkeys
    obtain ⟨copies, hcopies, haddresses, hsound⟩ := ih hrest
    refine ⟨(address, k) :: copies, ?_, ?_, List.forall_mem_cons.mpr ⟨hk, hsound⟩⟩
    · rw [CWallet.collectKeys, hk, hcopies]
      rfl
    · rw [List.map_cons, haddresses]

/-- Each key is stored under its own address of the wallet's version. -/
def CWallet.OwnAddresses (w : CWallet) : Prop :=
  ∀ address ∈ w.keystore.keys, ∃ k, w.keystore.getKey address = .ok (some k) ∧ (k.pair w.versionByte).address = address

/-- A backup comes back without an error, and what it unlocks to has the same keys. -/
def CWallet.Lossless (w : CWallet) (password : Bytes) (salt : Salt) (ivs : Nat → IV) (draws : Nat → CWallet.RestoreDraw) :
    Prop :=
  ∃ data w', w.backup password salt ivs = .ok data ∧ CWallet.restore data password draws = .ok (w', none) ∧
    ∀ draw, (w'.keystore.unlock password draw).1 = true ∧
      ∀ address, (w'.keystore.unlock password draw).2.getKey address = w.keystore.getKey address

/-- A backup and its restoration, whatever the version of the wallet. -/
theorem restore_backup {w : CWallet} (hsize : w.keystore.keys.size ≤ 1000000) (hown : w.OwnAddresses) (password : Bytes)
    (salt : Salt) (ivs : Nat → IV) (draws : Nat → CWallet.RestoreDraw) :
    ∃ data w' copies, w.backup password salt ivs = .ok data ∧ CWallet.restore data password draws = .ok (w', none) ∧
      copies.map Prod.fst = w.keystore.getAddresses ∧ (∀ kv ∈ copies, w.keystore.getKey kv.1 = .ok (some kv.2)) ∧
      ∀ draw, (w'.keystore.unlock password draw).1 = true ∧ ∀ address,
        (w'.keystore.unlock password draw).2.getKey address = .ok (restoredKeys (fun _ => none) copies address) := by
  have hgot : ∀ address ∈ w.keystore.getAddresses, ∃ k, w.keystore.getKey address = .ok (some k) := by
    intro address haddress
    obtain ⟨k, hk, -⟩ := hown address ((w.keystore.mem_getAddresses address).mp haddress)
    exact ⟨k, hk⟩
  obtain ⟨copies, hcopies, haddresses, hsound⟩ := collectKeys_spec hgot
  obtain ⟨kek, hkek⟩ := hideal.derives password salt.val
  obtain ⟨entries, hentries, hopens⟩ := sealKeys_spec hideal kek copies ivs
  have hcount : entries.length ≤ 1000000 := by
    have hlength := congrArg List.length haddresses
    rw [List.length_map, CKeystore.getAddresses, List.length_map, ExtTreeMap.length_toList] at hlength
    rw [← hopens.length_eq, hlength]
    exact hsize
  obtain ⟨kek', hempty⟩ := CKeystore.under_empty hideal password
  have hhead := accepts_backupHead (toVector sixteen_lt salt) hcount [] (entries.flatMap serializeBackupEntry)
  obtain ⟨w', hrestored, kek'', hunder⟩ := restoreEntries_spec hideal hopens (w := {}) rfl hempty draws
    (BACKUP_MAGIC ++ ([1] ++ (writeVarStr (toVector sixteen_lt salt) ++ writeVarInt entries.length)))
  refine ⟨encodeBackup (toVector sixteen_lt salt) entries, w', copies, ?_, ?_, haddresses, hsound, ?_⟩
  · rw [CWallet.backup, hcopies]
    simp only
    rw [hkek]
    simp only
    rw [hentries]
    rfl
  · have hdata : encodeBackup (toVector sixteen_lt salt) entries =
        (BACKUP_MAGIC ++ ([1] ++ (writeVarStr (toVector sixteen_lt salt) ++ writeVarInt entries.length))) ++
          entries.flatMap serializeBackupEntry := by
      simp only [encodeBackup, List.append_assoc]
    rw [List.nil_append, List.length_nil, Nat.zero_add] at hhead
    rw [CWallet.restore, hdata, hhead]
    simp only
    rw [show (toVector sixteen_lt salt).val = salt.val from rfl, hkek]
    exact hrestored
  · intro draw
    obtain ⟨hopen, hlocked, k, hdone⟩ := hunder.unlock_succeeds hideal (Or.inr rfl) draw
    exact ⟨hopen, hdone.getKey_eq hideal hlocked⟩

omit [Crypto] [Secp256k1] hideal in
theorem getKey_of_not_mem {ks : CKeystore} {address : Address} (hmem : address ∉ ks.keys) :
    ks.getKey address = .ok none := by
  have hnone : ks.keys[address]? = none := ExtTreeMap.getElem?_eq_none hmem
  rw [CKeystore.getKey, hnone]
  exact ite_self _

omit hideal in
/-- A wallet of another version has none of its keys under an address that `Restore` accepts. -/
theorem CWallet.OwnAddresses.address_ne {w : CWallet} (hown : w.OwnAddresses) (hversion : w.versionByte ≠ 0x1E)
    {address : Address} (hmem : address ∈ w.keystore.keys) {k : PrivKey} (hk : w.keystore.getKey address = .ok (some k)) :
    (k.pair 0x1E).address ≠ address := by
  obtain ⟨k', hk', haddress⟩ := hown address hmem
  rw [hk] at hk'
  cases hk'
  intro hsame
  exact hversion (hash160ToAddress_inj (haddress.trans hsame.symm)).1

/-- A wallet of another version loses its keys. -/
theorem not_lossless {w : CWallet} (hsize : w.keystore.keys.size ≤ 1000000) (hown : w.OwnAddresses)
    (hversion : w.versionByte ≠ 0x1E) (hne : w.keystore.keys ≠ ∅) (password : Bytes) (salt : Salt) (ivs : Nat → IV)
    (draws : Nat → CWallet.RestoreDraw) : ¬ w.Lossless password salt ivs draws := by
  rintro ⟨data', restored, hbackup', hrestore', hsame⟩
  obtain ⟨data, w', copies, hbackup, hrestore, haddresses, hsound, hkeys⟩ :=
    restore_backup hideal hsize hown password salt ivs draws
  obtain rfl : data = data' := Except.ok.inj (hbackup.symm.trans hbackup')
  obtain rfl : w' = restored := (Prod.mk.inj (Except.ok.inj (hrestore.symm.trans hrestore'))).1
  obtain ⟨address, haddress⟩ : ∃ address, address ∈ w.keystore.keys := by
    by_contra hnone
    exact hne (ExtTreeMap.eq_empty_iff_forall_not_mem.mpr (not_exists.mp hnone))
  obtain ⟨k, hk, -⟩ := hown address haddress
  have hlost := (hkeys salt).2 address
  rw [(hsame salt).2 address, hk, restoredKeys_of_other] at hlost
  · cases hlost
  · intro kv hkv
    refine hown.address_ne hversion ?_ (hsound kv hkv)
    rw [← w.keystore.mem_getAddresses, ← haddresses]
    exact List.mem_map_of_mem hkv

/-- Backup and restoration lose nothing exactly when the wallet has the default version or no keys. -/
theorem lossless_iff {w : CWallet} (hsize : w.keystore.keys.size ≤ 1000000) (hown : w.OwnAddresses) (password : Bytes)
    (salt : Salt) (ivs : Nat → IV) (draws : Nat → CWallet.RestoreDraw) :
    w.Lossless password salt ivs draws ↔ w.versionByte = 0x1E ∨ w.keystore.keys = ∅ := by
  constructor
  · intro hlossless
    by_contra hneither
    obtain ⟨hversion, hne⟩ := not_or.mp hneither
    exact not_lossless hideal hsize hown hversion hne password salt ivs draws hlossless
  · intro hcase
    obtain ⟨data, w', copies, hbackup, hrestore, haddresses, hsound, hkeys⟩ :=
      restore_backup hideal hsize hown password salt ivs draws
    refine ⟨data, w', hbackup, hrestore, fun draw => ⟨(hkeys draw).1, fun address => ?_⟩⟩
    rw [(hkeys draw).2 address, restoredKeys_of_default fun address => (w.keystore.getKey address).toOption.getD none]
    · by_cases haddress : address ∈ w.keystore.keys
      · obtain ⟨k, hk, -⟩ := hown address haddress
        rw [if_pos (by rwa [haddresses, w.keystore.mem_getAddresses]), hk]
        rfl
      · rw [if_neg (by rwa [haddresses, w.keystore.mem_getAddresses]), getKey_of_not_mem haddress]
    · intro kv hkv
      rw [hsound kv hkv]
      rfl
    · intro kv hkv
      have hstored : kv.1 ∈ w.keystore.keys := by
        rw [← w.keystore.mem_getAddresses, ← haddresses]
        exact List.mem_map_of_mem hkv
      rcases hcase with hversion | hempty
      · obtain ⟨k, hk, haddress⟩ := hown kv.1 hstored
        rw [hsound kv hkv] at hk
        cases hk
        rw [← hversion]
        exact haddress
      · rw [hempty] at hstored
        exact absurd hstored ExtTreeMap.not_mem_empty

end RoundTrip

section

theorem length_plainPubKey (k : PrivKey) : (2 :: k.val).length = 33 := by rw [List.length_cons, k.length_eq]

/-- A curve whose public keys are the private ones, and which never signs. -/
@[reducible]
def plainCurve : Secp256k1 where
  getPubKeyCompressed k := ⟨2 :: k.val, length_plainPubKey k⟩
  sign _ _ := none

attribute [local instance] toolCrypto plainCurve markedCipher

/-- An unlocked wallet with one key, under its own address. -/
def oneKeyWallet (versionByte : UInt8) : CWallet where
  keystore := ((({} : CKeystore).unlock (ascii "alpha") (markedTag 7)).2.addKey (oneKey.pair versionByte) zeroIV 1).2
  versionByte := versionByte

theorem oneKeyWallet_spec (versionByte : UInt8) : (oneKeyWallet versionByte).keystore.locked = false ∧
    (oneKeyWallet versionByte).keystore.keys.size ≤ 1000000 ∧ (oneKeyWallet versionByte).keystore.keys ≠ ∅ ∧
    (oneKeyWallet versionByte).OwnAddresses := by
  have hideal : IdealCipher [] := ideal_markedCipher.mono (List.nil_subset _)
  obtain ⟨kek, hempty⟩ := CKeystore.under_empty hideal (ascii "alpha")
  obtain ⟨-, hlocked, kek', hopen⟩ := hempty.unlock_succeeds hideal (Or.inr rfl) (markedTag 7)
  have hkey : (oneKey.pair versionByte).key = some oneKey := rfl
  obtain ⟨ks, hadd, hlocked', hunder⟩ := hopen.addKey hideal hlocked hkey zeroIV 1
  have hks : (oneKeyWallet versionByte).keystore = ks := congrArg Prod.snd hadd
  have hadded : ∀ address ∈ ks.keys, address = (oneKey.pair versionByte).address := by
    intro address hmem
    obtain ⟨entry, hentry⟩ := Option.isSome_iff_exists.mp (ExtTreeMap.mem_iff_isSome_getElem?.mp hmem)
    obtain ⟨-, k, hk, -⟩ := hunder.covers.entries address entry hentry
    by_contra hne
    rw [Function.update_of_ne hne] at hk
    cases hk
  rw [CWallet.OwnAddresses, hks]
  refine ⟨hlocked', ?_, ?_, ?_⟩
  · have hsize : ks.keys.size ≤ [(oneKey.pair versionByte).address].length :=
      orderedMap.size_le_length fun address hmem => List.mem_singleton.mpr (hadded address hmem)
    exact hsize.trans (Nat.le_add_left 1 999999)
  · intro hnone
    have hcomplete := hunder.covers.complete (oneKey.pair versionByte).address oneKey (Function.update_self ..)
    rw [hnone] at hcomplete
    exact hcomplete.elim ExtTreeMap.not_mem_empty List.not_mem_nil
  · intro address hmem
    refine ⟨oneKey, ?_, (hadded address hmem).symm⟩
    rw [hunder.getKey_eq hideal hlocked', hadded address hmem, Function.update_self]
    rfl

theorem lossless_mainnet : (oneKeyWallet 0x1E).keystore.locked = false ∧
    (oneKeyWallet 0x1E).keystore.keys.size ≤ 1000000 ∧ (oneKeyWallet 0x1E).OwnAddresses ∧
    (oneKeyWallet 0x1E).Lossless (ascii "beta") (markedTag 8) (fun _ => zeroIV)
      (fun _ => ⟨markedTag 9, markedTag 10, zeroIV, 2⟩) := by
  obtain ⟨hunlocked, hsize, -, hown⟩ := oneKeyWallet_spec 0x1E
  have hideal : IdealCipher [] := ideal_markedCipher.mono (List.nil_subset _)
  exact ⟨hunlocked, hsize, hown, (lossless_iff hideal hsize hown _ _ _ _).mpr (Or.inl rfl)⟩

/-- The key of a regtest wallet does not come back. -/
theorem not_lossless_regtest : (oneKeyWallet 0x6F).keystore.locked = false ∧
    (oneKeyWallet 0x6F).keystore.keys.size ≤ 1000000 ∧ (oneKeyWallet 0x6F).OwnAddresses ∧
    ¬ (oneKeyWallet 0x6F).Lossless (ascii "beta") (markedTag 8) (fun _ => zeroIV)
      (fun _ => ⟨markedTag 9, markedTag 10, zeroIV, 2⟩) := by
  obtain ⟨hunlocked, hsize, hne, hown⟩ := oneKeyWallet_spec 0x6F
  have hideal : IdealCipher [] := ideal_markedCipher.mono (List.nil_subset _)
  exact ⟨hunlocked, hsize, hown, not_lossless hideal hsize hown (by decide) hne _ _ _ _⟩

end

end cdx
