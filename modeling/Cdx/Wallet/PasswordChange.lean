import Cdx.Wallet.Coherence

namespace cdx

open Std (ExtTreeMap)

section Steps

variable [Cipher]

namespace CKeystore

/-- The keystore with which `ChangePassword` goes on, if any: a locked one must open under the old password. -/
def opened (ks : CKeystore) (oldPassword : Bytes) (draw : Salt) : Option CKeystore :=
  if ks.locked then
    match ks.unlock oldPassword draw with
    | (false, _) => none
    | (true, ks) => some ks
  else some ks

/-- No encryption of the last loop fails. -/
def EncryptsAll (kek : Bytes) (copies : List (Address × PrivKey)) (draws : Nat → IV × UInt64) : Prop :=
  ∀ i kv, copies[i]? = some kv →
    ∃ entry, encryptEntry kek kv.1 (getPrivKey (some kv.2)) (draws i).1 (draws i).2 = .ok entry

theorem opened_cases (ks : CKeystore) (oldPassword : Bytes) (draw : Salt) :
    (ks.locked = false ∧ ks.opened oldPassword draw = some ks) ∨
    (ks.locked = true ∧ ∃ k, Cipher.deriveKey oldPassword (saltFor ks.salt draw).val = some k ∧ ks.FirstOpens k.val ∧
      ks.opened oldPassword draw = some { ks with salt := saltFor ks.salt draw, kek := k.val, locked := false } ∧
      ks.unlock oldPassword draw = (true, { ks with salt := saltFor ks.salt draw, kek := k.val, locked := false })) ∨
    (ks.locked = true ∧ ks.opened oldPassword draw = none ∧
      ks.unlock oldPassword draw = (false, { ks with salt := saltFor ks.salt draw })) := by
  unfold opened
  cases hlocked : ks.locked with
  | false => exact .inl ⟨rfl, if_neg Bool.false_ne_true⟩
  | true =>
    rw [if_pos rfl]
    rcases ks.unlock_cases oldPassword draw with ⟨k, hk, hopens, hunlock⟩ | hunlock
    · rw [hunlock]
      exact .inr (.inl ⟨rfl, k, hk, hopens, rfl, rfl⟩)
    · rw [hunlock, hlocked]
      exact .inr (.inr ⟨rfl, rfl, rfl⟩)

/-- The keystore it goes on with has the same entries, and a salt that was there is kept. -/
theorem opened_eq_some {ks ks' : CKeystore} {oldPassword : Bytes} {draw : Salt}
    (hopened : ks.opened oldPassword draw = some ks') :
    ks'.locked = false ∧ ks'.keys = ks.keys ∧ (ks.salt.val ≠ [] → ks'.salt = ks.salt) := by
  rcases ks.opened_cases oldPassword draw with ⟨hlocked, hsome⟩ | ⟨-, k, -, -, hsome, -⟩ | ⟨-, hnone, -⟩
  · rw [hsome] at hopened
    cases hopened
    exact ⟨hlocked, rfl, fun _ => rfl⟩
  · rw [hsome] at hopened
    cases hopened
    exact ⟨rfl, rfl, fun hsalt => if_neg hsalt⟩
  · rw [hnone] at hopened
    cases hopened

/-- The copies are made if every key is to be had. -/
theorem exists_copyKeys {ks : CKeystore} {addresses : List Address}
    (hkeys : ∀ address ∈ addresses, ∃ k, ks.getKey address = .ok (some k)) :
    ∃ copies, ks.copyKeys addresses = .ok (some copies) := by
  induction addresses with
  | nil => exact ⟨[], rfl⟩
  | cons address rest ih =>
    rw [List.forall_mem_cons] at hkeys
    obtain ⟨k, hk⟩ := hkeys.1
    obtain ⟨copies, hcopies⟩ := ih hkeys.2
    exact ⟨(address, k) :: copies, by rw [copyKeys, hk]; simp only [hcopies]; rfl⟩

theorem reencrypt_succeeds {ks : CKeystore} {copies : List (Address × PrivKey)} {draws : Nat → IV × UInt64}
    (hall : EncryptsAll ks.kek copies draws) : (ks.reencrypt copies draws).1 = .ok true := by
  induction copies generalizing ks draws with
  | nil => rfl
  | cons head rest ih =>
    obtain ⟨entry, hentry⟩ := hall 0 head rfl
    rw [reencrypt, hentry]
    exact @ih { ks with keys := ks.keys.insert head.1 entry } _ fun i kv hkv => hall (i + 1) kv hkv

/-- A last loop that fails throws, and has not stored the key at which it stopped. -/
theorem reencrypt_fails {ks : CKeystore} {copies : List (Address × PrivKey)} {draws : Nat → IV × UInt64}
    (hfails : ¬EncryptsAll ks.kek copies draws) (hdistinct : (copies.map Prod.fst).Nodup)
    (hfresh : ∀ kv ∈ copies, kv.1 ∉ ks.keys) :
    (ks.reencrypt copies draws).1 ≠ .ok true ∧ ∃ kv ∈ copies, kv.1 ∉ (ks.reencrypt copies draws).2.keys := by
  induction copies generalizing ks draws with
  | nil => exact absurd (fun i kv hkv => by simp at hkv) hfails
  | cons head rest ih =>
    obtain ⟨address, k⟩ := head
    rw [reencrypt]
    cases hentry : encryptEntry ks.kek address (getPrivKey (some k)) (draws 0).1 (draws 0).2 with
    | error e => exact ⟨by simp, (address, k), List.mem_cons_self, hfresh _ List.mem_cons_self⟩
    | ok entry =>
      rw [List.map_cons, List.nodup_cons] at hdistinct
      have hlater : ¬EncryptsAll ks.kek rest fun i => draws (i + 1) := by
        intro hall
        refine hfails fun i kv hkv => ?_
        cases i with
        | zero =>
          cases hkv
          exact ⟨entry, hentry⟩
        | succ i => exact hall i kv hkv
      obtain ⟨hthrown, kv, hkv, hlost⟩ := @ih { ks with keys := ks.keys.insert address entry } _ hlater hdistinct.2 (by
        intro kv hkv hmem
        rw [orderedMap.mem_insert] at hmem
        rcases hmem with hsame | hold
        · exact hdistinct.1 (List.mem_map.mpr ⟨kv, hkv, hsame⟩)
        · exact hfresh kv (List.mem_cons_of_mem _ hkv) hold)
      exact ⟨hthrown, kv, List.mem_cons_of_mem _ hkv, hlost⟩

end CKeystore

end Steps

section Faults

variable [Cipher]

/-- Which calls of OpenSSL fail, and with which error. -/
structure Faults where
  derive : (password salt : Bytes) → Bool
  encrypt : (key : Bytes) → (plain : Bytes32) → (iv : IV) → Option String
  decrypt : (key cipher iv tag : Bytes) → Option String

/-- What a call returns that may fail. -/
def failing {α : Type} (fault : Option String) (result : Except String α) : Except String α := fault.elim result .error

omit [Cipher] in
theorem failing_eq_ok {α : Type} {fault : Option String} {result : Except String α} {a : α}
    (hresult : failing fault result = .ok a) : result = .ok a := by
  cases fault with
  | none => exact hresult
  | some e => cases hresult

/-- The cipher in a run with these failures. -/
@[reducible]
def Faults.cipher (faults : Faults) : Cipher where
  deriveKey password salt := if faults.derive password salt then none else Cipher.deriveKey password salt
  aesEncrypt key plain iv := failing (faults.encrypt key plain iv) (Cipher.aesEncrypt key plain iv)
  aesDecrypt key cipher iv tag := failing (faults.decrypt key cipher iv tag) (Cipher.aesDecrypt key cipher iv tag)

namespace Faults

variable (faults : Faults)

theorem deriveKey_eq_some {password salt : Bytes} {k : Bytes32}
    (hk : @Cipher.deriveKey faults.cipher password salt = some k) : Cipher.deriveKey password salt = some k := by
  change (if faults.derive password salt then none else Cipher.deriveKey password salt) = some k at hk
  split at hk
  · cases hk
  · exact hk

theorem decrypt_eq_ok {entry : EncryptedKeyEntry} {kek plain : Bytes}
    (hplain : @EncryptedKeyEntry.decrypt faults.cipher entry kek = .ok plain) : entry.decrypt kek = .ok plain :=
  failing_eq_ok hplain

theorem encryptEntry_eq_ok {kek : Bytes} {address : Address} {plain : Bytes32} {iv : IV} {now : UInt64}
    {entry : EncryptedKeyEntry} (hentry : @encryptEntry faults.cipher kek address plain iv now = .ok entry) :
    encryptEntry kek address plain iv now = .ok entry := by
  unfold encryptEntry at hentry ⊢
  cases hsealed : @Cipher.aesEncrypt faults.cipher kek plain iv with
  | error e =>
    rw [hsealed] at hentry
    cases hentry
  | ok sealed =>
    rw [hsealed] at hentry
    rw [failing_eq_ok hsealed]
    exact hentry

/-- An encryption fails only where a failure is given. -/
theorem exists_encryptEntry_iff (haes : AesGcm []) {kek : Bytes} {address : Address} {plain : Bytes32} {iv : IV}
    {now : UInt64} :
    (∃ entry, @encryptEntry faults.cipher kek address plain iv now = .ok entry) ↔ faults.encrypt kek plain iv = none := by
  obtain ⟨sealed, hsealed⟩ := haes.encrypts kek plain iv
  have hcall : @Cipher.aesEncrypt faults.cipher kek plain iv = failing (faults.encrypt kek plain iv) (.ok sealed) :=
    congrArg (failing _) hsealed
  unfold encryptEntry
  rw [hcall]
  cases faults.encrypt kek plain iv with
  | none => exact iff_of_true ⟨_, rfl⟩ rfl
  | some e => exact iff_of_false (fun ⟨_, hentry⟩ => nomatch hentry) (Option.some_ne_none e)

end Faults

namespace CKeystore

/-- `ChangePassword` in a run in which these calls fail: those of `Unlock`, and those after it. -/
def changePasswordIn (unlocking faults : Faults) (ks : CKeystore) (oldPassword newPassword : Bytes) (draw newSalt : Salt)
    (draws : Nat → IV × UInt64) : Except String Bool × CKeystore :=
  if ks.locked then
    match @unlock unlocking.cipher ks oldPassword draw with
    | (false, ks) => (.ok false, ks)
    | (true, ks) => @rekey faults.cipher ks newPassword newSalt draws
  else @rekey faults.cipher ks newPassword newSalt draws

/-- With the same failures in both it is `ChangePassword` over the cipher with these failures. -/
theorem changePasswordIn_self (faults : Faults) : @changePasswordIn _ faults faults = @changePassword faults.cipher := rfl

variable (unlocking faults : Faults)

/-- `ChangePassword` comes to its last loop, with these copies of the keys and this new key-encryption key. -/
def ReachesLoop (ks : CKeystore) (oldPassword newPassword : Bytes) (draw newSalt : Salt) (copies : List (Address × PrivKey))
    (newKek : Bytes32) : Prop :=
  ∃ ks', @opened unlocking.cipher ks oldPassword draw = some ks' ∧
    @copyKeys faults.cipher ks' ks'.getAddresses = .ok (some copies) ∧
    @Cipher.deriveKey faults.cipher newPassword newSalt.val = some newKek

/-- What it takes to come that far, with the key under which the entries are read and the new key-encryption key: an
    unlocked keystore reads them under its own, a locked one under that of the old password, which must open the first of
    them; all of them must give a private key; and the new key must be derived. -/
structure Proceeds (ks : CKeystore) (oldPassword newPassword : Bytes) (draw newSalt : Salt) (key : Bytes) (newKek : Bytes32) :
    Prop where
  unlocked : ks.locked = false → key = ks.kek
  unlocks : ks.locked = true →
    (∃ k, @Cipher.deriveKey unlocking.cipher oldPassword (saltFor ks.salt draw).val = some k ∧ key = k.val) ∧
      @FirstOpens unlocking.cipher ks key
  entries : ∀ (address : Address) (entry : EncryptedKeyEntry), ks.keys[address]? = some entry →
    ∃ k : PrivKey, @EncryptedKeyEntry.decrypt faults.cipher entry key = .ok k.val
  derives : @Cipher.deriveKey faults.cipher newPassword newSalt.val = some newKek

theorem Proceeds.opened {ks : CKeystore} {oldPassword newPassword : Bytes} {draw newSalt : Salt} {key : Bytes}
    {newKek : Bytes32} (hproceeds : ks.Proceeds unlocking faults oldPassword newPassword draw newSalt key newKek) :
    ∃ ks', @opened unlocking.cipher ks oldPassword draw = some ks' ∧ ks'.kek = key := by
  unfold CKeystore.opened
  cases hlocked : ks.locked with
  | false => exact ⟨ks, if_neg Bool.false_ne_true, (hproceeds.unlocked hlocked).symm⟩
  | true =>
    obtain ⟨⟨k, hk, rfl⟩, hopens⟩ := hproceeds.unlocks hlocked
    rw [if_pos rfl, @unlock_of_opens unlocking.cipher _ _ _ _ hk hopens]
    exact ⟨_, rfl, rfl⟩

/-- It comes to its last loop exactly if it may proceed. -/
theorem exists_reachesLoop_iff {ks : CKeystore} {oldPassword newPassword : Bytes} {draw newSalt : Salt} {newKek : Bytes32} :
    (∃ copies, ks.ReachesLoop unlocking faults oldPassword newPassword draw newSalt copies newKek) ↔
      ∃ key, ks.Proceeds unlocking faults oldPassword newPassword draw newSalt key newKek := by
  constructor
  · rintro ⟨copies, ks', hopened, hcopies, hkek⟩
    obtain ⟨hunlocked, hkeys, -⟩ := @opened_eq_some unlocking.cipher _ _ _ _ hopened
    obtain ⟨haddresses, hcopied⟩ := @copyKeys_spec faults.cipher _ _ _ hcopies
    refine ⟨ks'.kek, ?_, ?_, ?_, hkek⟩
    · intro hlocked
      rcases @opened_cases unlocking.cipher ks oldPassword draw with ⟨-, hsome⟩ | ⟨hnot, -⟩ | ⟨hnot, -⟩
      · rw [hsome] at hopened
        cases hopened
        rfl
      · exact absurd (hlocked.symm.trans hnot) (by decide)
      · exact absurd (hlocked.symm.trans hnot) (by decide)
    · intro hlocked
      rcases @opened_cases unlocking.cipher ks oldPassword draw with ⟨hnot, -⟩ | ⟨-, k, hk, hopens, hsome, -⟩ | ⟨-, hnone, -⟩
      · exact absurd (hlocked.symm.trans hnot) (by decide)
      · rw [hsome] at hopened
        cases hopened
        exact ⟨⟨k, hk, rfl⟩, hopens⟩
      · rw [hnone] at hopened
        cases hopened
    · intro address entry hentry
      rw [← hkeys] at hentry
      have hmem : address ∈ ks'.getAddresses :=
        (ks'.mem_getAddresses address).mpr (ExtTreeMap.mem_iff_isSome_getElem?.mpr (hentry ▸ rfl))
      rw [← haddresses] at hmem
      obtain ⟨kv, hkv, rfl⟩ := List.mem_map.mp hmem
      obtain ⟨entry', hentry', hdecrypt⟩ := (@getKey_eq_some_iff faults.cipher _ hunlocked kv.1 kv.2).mp (hcopied kv hkv)
      obtain rfl := Option.some.inj (hentry.symm.trans hentry')
      exact ⟨kv.2, hdecrypt⟩
  · rintro ⟨key, hproceeds⟩
    obtain ⟨ks', hopened, rfl⟩ := hproceeds.opened
    obtain ⟨hunlocked, hkeys, -⟩ := @opened_eq_some unlocking.cipher _ _ _ _ hopened
    obtain ⟨copies, hcopies⟩ : ∃ copies, @copyKeys faults.cipher ks' ks'.getAddresses = .ok (some copies) := by
      refine @exists_copyKeys faults.cipher _ _ fun address hmem => ?_
      rw [mem_getAddresses] at hmem
      obtain ⟨entry, hentry⟩ := Option.isSome_iff_exists.mp (ExtTreeMap.mem_iff_isSome_getElem?.mp hmem)
      obtain ⟨k, hk⟩ := hproceeds.entries address entry (hkeys ▸ hentry)
      exact ⟨k, (@getKey_eq_some_iff faults.cipher _ hunlocked address k).mpr ⟨entry, hentry, hk⟩⟩
    exact ⟨copies, ks', hopened, hcopies, hproceeds.derives⟩

theorem changePasswordIn_of_opened {ks ks' : CKeystore} {oldPassword : Bytes} {draw : Salt}
    (hopened : @opened unlocking.cipher ks oldPassword draw = some ks') (newPassword : Bytes) (newSalt : Salt)
    (draws : Nat → IV × UInt64) :
    ks.changePasswordIn unlocking faults oldPassword newPassword draw newSalt draws =
      @rekey faults.cipher ks' newPassword newSalt draws := by
  unfold changePasswordIn
  rcases @opened_cases unlocking.cipher ks oldPassword draw with
    ⟨hlocked, hsome⟩ | ⟨hlocked, k, -, -, hsome, hunlock⟩ | ⟨-, hnone, -⟩
  · rw [hsome] at hopened
    cases hopened
    rw [if_neg (by rw [hlocked]; exact Bool.false_ne_true)]
  · rw [hsome] at hopened
    cases hopened
    rw [if_pos hlocked, hunlock]
  · rw [hnone] at hopened
    cases hopened

/-- Once it is reached, the last loop starts without entries. -/
theorem ReachesLoop.changePasswordIn_eq {ks : CKeystore} {oldPassword newPassword : Bytes} {draw newSalt : Salt}
    {copies : List (Address × PrivKey)} {newKek : Bytes32}
    (hreaches : ks.ReachesLoop unlocking faults oldPassword newPassword draw newSalt copies newKek)
    (draws : Nat → IV × UInt64) :
    ks.changePasswordIn unlocking faults oldPassword newPassword draw newSalt draws = @reencrypt faults.cipher
      { locked := false, salt := toVector sixteen_lt newSalt, kek := newKek.val } copies draws := by
  obtain ⟨ks', hopened, hcopies, hkek⟩ := hreaches
  rw [changePasswordIn_of_opened unlocking faults hopened]
  unfold rekey
  rw [hcopies]
  simp only
  rw [hkek, (@opened_eq_some unlocking.cipher _ _ _ _ hopened).1]

/-- If it is not reached, the keystore has its entries still. -/
theorem changePasswordIn_of_not_reaches {ks : CKeystore} {oldPassword newPassword : Bytes} {draw newSalt : Salt}
    (hnot : ∀ copies newKek, ¬ks.ReachesLoop unlocking faults oldPassword newPassword draw newSalt copies newKek)
    (draws : Nat → IV × UInt64) :
    (ks.changePasswordIn unlocking faults oldPassword newPassword draw newSalt draws).1 ≠ .ok true ∧
      (ks.changePasswordIn unlocking faults oldPassword newPassword draw newSalt draws).2.keys = ks.keys ∧
      (ks.salt.val ≠ [] →
        (ks.changePasswordIn unlocking faults oldPassword newPassword draw newSalt draws).2.salt = ks.salt) := by
  cases hopened : @opened unlocking.cipher ks oldPassword draw with
  | none =>
    rcases @opened_cases unlocking.cipher ks oldPassword draw with
      ⟨-, hsome⟩ | ⟨-, k, -, -, hsome, -⟩ | ⟨hlocked, -, hunlock⟩
    · rw [hopened] at hsome
      cases hsome
    · rw [hopened] at hsome
      cases hsome
    · rw [changePasswordIn, if_pos hlocked, hunlock]
      exact ⟨by simp, rfl, fun hsalt => if_neg hsalt⟩
  | some ks' =>
    obtain ⟨-, hkeys, hsalt⟩ := @opened_eq_some unlocking.cipher _ _ _ _ hopened
    rw [changePasswordIn_of_opened unlocking faults hopened]
    unfold rekey
    cases hcopies : @copyKeys faults.cipher ks' ks'.getAddresses with
    | error e => exact ⟨by simp, hkeys, hsalt⟩
    | ok copied =>
      cases copied with
      | none => exact ⟨by simp, hkeys, hsalt⟩
      | some copies =>
        cases hkek : @Cipher.deriveKey faults.cipher newPassword newSalt.val with
        | none =>
          simp only
          exact ⟨by simp, hkeys, hsalt⟩
        | some newKek => exact absurd ⟨ks', hopened, hcopies, hkek⟩ (hnot copies newKek)

/-- A last loop in which no encryption fails runs as if none could. -/
theorem reencrypt_of_encryptsAll {ks : CKeystore} {copies : List (Address × PrivKey)} {draws : Nat → IV × UInt64}
    (hall : @EncryptsAll faults.cipher ks.kek copies draws) :
    @reencrypt faults.cipher ks copies draws = ks.reencrypt copies draws := by
  induction copies generalizing ks draws with
  | nil => rfl
  | cons head rest ih =>
    obtain ⟨address, k⟩ := head
    obtain ⟨entry, hentry⟩ := hall 0 (address, k) rfl
    rw [@reencrypt.eq_2 faults.cipher, hentry, reencrypt, faults.encryptEntry_eq_ok hentry]
    exact @ih { ks with keys := ks.keys.insert address entry } _ fun i kv hkv => hall (i + 1) kv hkv

/-- Unlocked again with this password, the keystore returns the key. -/
def RecoversUnder (ks : CKeystore) (password : Bytes) (address : Address) (k : PrivKey) : Prop :=
  ∀ draw, ∃ ks', ks.lock.unlock password draw = (true, ks') ∧ ks'.getKey address = .ok (some k)

theorem RecoversUnder.mem {ks : CKeystore} {password : Bytes} {address : Address} {k : PrivKey}
    (hrecovers : ks.RecoversUnder password address k) : address ∈ ks.keys := by
  obtain ⟨ks', hunlock, hget⟩ := hrecovers ⟨List.replicate 16 0, List.length_replicate⟩
  have hkeys : ks'.keys = ks.keys := by
    have hsame := ks.lock.keys_unlock password ⟨List.replicate 16 0, List.length_replicate⟩
    rwa [hunlock] at hsame
  have hlocked : ks'.locked = false := by
    by_contra hlocked
    rw [getKey, if_pos (Bool.of_not_eq_false hlocked)] at hget
    cases hget
  obtain ⟨entry, hentry, -⟩ := (getKey_eq_some_iff hlocked address k).mp hget
  rw [hkeys] at hentry
  exact ExtTreeMap.mem_iff_isSome_getElem?.mpr (hentry ▸ rfl)

variable {password : Bytes} (haes : AesGcm [])
include haes

/-- A keystore whose entries are sealed under the key of a password gives them back under it. -/
theorem recoversUnder_of_covers {ks : CKeystore} {current : Bytes} {kek : Bytes32} {added : Address → Option PrivKey}
    (hsalt : ks.salt.val ≠ []) (hkek : Cipher.deriveKey current ks.salt.val = some kek)
    (hcovers : Covers kek.val added ks.keys []) {address : Address} {k : PrivKey} (hk : added address = some k) :
    ks.RecoversUnder current address k := by
  intro draw
  have hsaltFor : saltFor ks.lock.salt draw = ks.salt := if_neg hsalt
  have hopens : ks.lock.FirstOpens kek.val := firstOpens_of_covers haes hcovers
  refine ⟨_, unlock_of_opens (hsaltFor.symm ▸ hkek) hopens, ?_⟩
  rw [getKey_eq_some_iff rfl]
  have hmem := (hcovers.complete address k hk).resolve_right List.not_mem_nil
  obtain ⟨entry, hentry⟩ := Option.isSome_iff_exists.mp (ExtTreeMap.mem_iff_isSome_getElem?.mp hmem)
  obtain ⟨-, k', hk', hseals⟩ := hcovers.entries address entry hentry
  rw [hk] at hk'
  cases hk'
  exact ⟨entry, hentry, haes.decrypt_of_seals hseals⟩

variable {ks : CKeystore} {added : Address → Option PrivKey} {kek : Bytes32} (hunder : ks.Under password added kek)
include hunder

omit haes in
/-- With the current password, the key with which `ChangePassword` opens the entries is the one that sealed them. -/
theorem Under.kek_opened {draw : Salt} {ks' : CKeystore}
    (hopened : @opened unlocking.cipher ks password draw = some ks') (hkeys : ks.keys ≠ ∅) : ks'.kek = kek.val := by
  rcases @opened_cases unlocking.cipher ks password draw with
    ⟨hlocked, hsome⟩ | ⟨-, k, hk, -, hsome, -⟩ | ⟨-, hnone, -⟩
  · rw [hsome] at hopened
    cases hopened
    exact hunder.unlocked hlocked
  · rw [hsome] at hopened
    cases hopened
    have hsalt : CKeystore.saltFor ks.salt draw = ks.salt := if_neg fun hempty => hkeys (hunder.salted hempty).1
    rw [hsalt] at hk
    obtain rfl := Option.some.inj ((unlocking.deriveKey_eq_some hk).symm.trans hunder.derived)
    rfl
  · rw [hnone] at hopened
    cases hopened

omit haes hunder in
theorem ReachesLoop.addresses {oldPassword newPassword : Bytes} {draw newSalt : Salt} {copies : List (Address × PrivKey)}
    {newKek : Bytes32} (hreaches : ks.ReachesLoop unlocking faults oldPassword newPassword draw newSalt copies newKek) :
    copies.map Prod.fst = ks.getAddresses := by
  obtain ⟨ks', hopened, hcopies, -⟩ := hreaches
  rw [(@copyKeys_spec faults.cipher _ _ _ hcopies).1, getAddresses, getAddresses,
    (@opened_eq_some unlocking.cipher _ _ _ _ hopened).2.1]

/-- With the current password, the copies are the keys added. -/
theorem Under.copies_eq {newPassword : Bytes} {draw newSalt : Salt} {copies : List (Address × PrivKey)}
    {newKek : Bytes32} (hreaches : ks.ReachesLoop unlocking faults password newPassword draw newSalt copies newKek) :
    ∀ kv ∈ copies, added kv.1 = some kv.2 := by
  obtain ⟨ks', hopened, hcopies, -⟩ := hreaches
  obtain ⟨hlocked, hkeys, -⟩ := @opened_eq_some unlocking.cipher _ _ _ _ hopened
  intro kv hkv
  obtain ⟨entry, hentry, hdecrypt⟩ := (@getKey_eq_some_iff faults.cipher _ hlocked kv.1 kv.2).mp
    ((@copyKeys_spec faults.cipher _ _ _ hcopies).2 kv hkv)
  rw [hkeys] at hentry
  have hnonempty : ks.keys ≠ ∅ := by
    intro hempty
    simp [hempty] at hentry
  obtain ⟨-, k, hk, hseals⟩ := hunder.covers.entries kv.1 entry hentry
  have hplain := faults.decrypt_eq_ok hdecrypt
  rw [hunder.kek_opened unlocking hopened hnonempty, haes.decrypt_of_seals hseals] at hplain
  rw [hk]
  exact congrArg some (Subtype.ext (Except.ok.inj hplain))

omit haes in
/-- The keys that `ChangePassword` has copied are all the keys added. -/
theorem Under.mem_copies {copies : List (Address × PrivKey)} (haddresses : copies.map Prod.fst = ks.getAddresses)
    (hcopies : ∀ kv ∈ copies, added kv.1 = some kv.2) {address : Address} {k : PrivKey} (hk : added address = some k) :
    (address, k) ∈ copies := by
  have hmem := (hunder.covers.complete address k hk).resolve_right List.not_mem_nil
  rw [← mem_getAddresses, ← haddresses] at hmem
  obtain ⟨kv, hkv, rfl⟩ := List.mem_map.mp hmem
  have hsame := hcopies kv hkv
  rw [hk] at hsame
  cases hsame
  exact hkv

end CKeystore

section Outcome

variable (unlocking faults : Faults)

/-- A true answer means that the old password was the current one and that every key is recovered under the new
    one; with any other outcome every key is still recovered under the current one. -/
def CKeystore.SecureChange (ks : CKeystore) (password : Bytes) (added : Address → Option PrivKey)
    (oldPassword newPassword : Bytes) (draw newSalt : Salt) (draws : Nat → IV × UInt64) : Prop :=
  let r := ks.changePasswordIn unlocking faults oldPassword newPassword draw newSalt draws
  (r.1 = .ok true → oldPassword = password ∧ ∀ address k, added address = some k → r.2.RecoversUnder newPassword address k) ∧
    (r.1 ≠ .ok true → ∀ address k, added address = some k → r.2.RecoversUnder password address k)

namespace CKeystore

variable {password : Bytes} (haes : AesGcm []) {ks : CKeystore} {added : Address → Option PrivKey} {kek : Bytes32}
  (hunder : ks.Under password added kek)
include haes hunder

theorem Under.secureChange_of_not_reaches {oldPassword newPassword : Bytes} {draw newSalt : Salt}
    (hnot : ∀ copies newKek, ¬ks.ReachesLoop unlocking faults oldPassword newPassword draw newSalt copies newKek)
    (draws : Nat → IV × UInt64) :
    ks.SecureChange unlocking faults password added oldPassword newPassword draw newSalt draws := by
  obtain ⟨hfalse, hkeys, hsalt⟩ := changePasswordIn_of_not_reaches unlocking faults hnot draws
  refine ⟨fun htrue => absurd htrue hfalse, fun _ address k hk => ?_⟩
  have hmem := (hunder.covers.complete address k hk).resolve_right List.not_mem_nil
  have hsalted : ks.salt.val ≠ [] := by
    intro hempty
    rw [(hunder.salted hempty).1] at hmem
    exact ExtTreeMap.not_mem_empty hmem
  have hsame := hsalt hsalted
  refine recoversUnder_of_covers haes (by rwa [hsame]) (by rw [hsame]; exact hunder.derived) ?_ hk
  rw [hkeys]
  exact hunder.covers

omit haes in
/-- Once the last loop is reached, the old password must have been right and no encryption may fail: the old entries are
    gone. -/
theorem Under.right_of_reaches {oldPassword newPassword : Bytes} {draw newSalt : Salt} {copies : List (Address × PrivKey)}
    {newKek : Bytes32} (hreaches : ks.ReachesLoop unlocking faults oldPassword newPassword draw newSalt copies newKek)
    {draws : Nat → IV × UInt64}
    (hsecure : ks.SecureChange unlocking faults password added oldPassword newPassword draw newSalt draws) :
    oldPassword = password ∧ @EncryptsAll faults.cipher newKek.val copies draws := by
  have haddresses := hreaches.addresses
  unfold SecureChange at hsecure
  simp only at hsecure
  rw [hreaches.changePasswordIn_eq unlocking faults draws] at hsecure
  by_cases hencrypts : @EncryptsAll faults.cipher newKek.val copies draws
  · exact ⟨(hsecure.1 (@reencrypt_succeeds faults.cipher
      { locked := false, salt := toVector sixteen_lt newSalt, kek := newKek.val } _ _ hencrypts)).1, hencrypts⟩
  · exfalso
    have hdistinct : (copies.map Prod.fst).Nodup := by
      rw [haddresses, getAddresses, ExtTreeMap.map_fst_toList_eq_keys]
      exact ExtTreeMap.nodup_keys
    obtain ⟨hthrown, kv, hkv, hlost⟩ := @reencrypt_fails faults.cipher
      { locked := false, salt := toVector sixteen_lt newSalt, kek := newKek.val } _ _ hencrypts hdistinct
      fun _ _ => ExtTreeMap.not_mem_empty
    have hmem : kv.1 ∈ ks.keys := by
      rw [← mem_getAddresses, ← haddresses]
      exact List.mem_map_of_mem hkv
    obtain ⟨entry, hentry⟩ := Option.isSome_iff_exists.mp (ExtTreeMap.mem_iff_isSome_getElem?.mp hmem)
    obtain ⟨-, k, hk, -⟩ := hunder.covers.entries kv.1 entry hentry
    exact hlost (hsecure.2 hthrown kv.1 k hk).mem

/-- With the current password and without a failure of its encryptions the last loop seals every key under the new one. -/
theorem Under.secureChange_of_reaches {newPassword : Bytes} {draw newSalt : Salt} {copies : List (Address × PrivKey)}
    {newKek : Bytes32} (hreaches : ks.ReachesLoop unlocking faults password newPassword draw newSalt copies newKek)
    {draws : Nat → IV × UInt64} (hencrypts : @EncryptsAll faults.cipher newKek.val copies draws) :
    ks.SecureChange unlocking faults password added password newPassword draw newSalt draws := by
  have hcopies := hunder.copies_eq unlocking faults haes hreaches
  have hcovers : Covers newKek.val added ∅ copies :=
    ⟨fun _ _ hentry => by simp at hentry, fun a k hk => .inr (hunder.mem_copies hreaches.addresses hcopies hk)⟩
  obtain ⟨keys, hloop, hdone⟩ := @reencrypt_spec _ _ haes
    { locked := false, salt := toVector sixteen_lt newSalt, kek := newKek.val } _ _ draws hcovers hcopies
  unfold SecureChange
  rw [hreaches.changePasswordIn_eq unlocking faults draws, reencrypt_of_encryptsAll faults hencrypts, hloop]
  obtain ⟨-, -, -, hkek⟩ := hreaches
  refine ⟨fun _ => ⟨rfl, fun address k hk => ?_⟩, fun hfalse => absurd rfl hfalse⟩
  exact recoversUnder_of_covers haes (salt_ne_nil newSalt) (faults.deriveKey_eq_some hkek) hdone hk

omit hunder in
/-- Which encryptions of the last loop fail, for copies that are the keys added. -/
theorem encryptsAll_iff {copies : List (Address × PrivKey)} (haddresses : copies.map Prod.fst = ks.getAddresses)
    (hcopies : ∀ kv ∈ copies, added kv.1 = some kv.2) (newKek : Bytes) (draws : Nat → IV × UInt64) :
    @EncryptsAll faults.cipher newKek copies draws ↔ ∀ (i : Nat) address k, ks.getAddresses[i]? = some address →
      added address = some k → faults.encrypt newKek (getPrivKey (some k)) (draws i).1 = none := by
  have hcopy : ∀ (i : Nat) address k, copies[i]? = some (address, k) ↔
      ks.getAddresses[i]? = some address ∧ added address = some k := by
    intro i address k
    rw [← haddresses, List.getElem?_map]
    constructor
    · intro hget
      rw [hget]
      exact ⟨rfl, hcopies _ (List.mem_of_getElem? hget)⟩
    · rintro ⟨hget, hk⟩
      obtain ⟨kv, hkv, rfl⟩ := Option.map_eq_some_iff.mp hget
      rw [hkv, ← Option.some.inj ((hcopies kv (List.mem_of_getElem? hkv)).symm.trans hk)]
  unfold EncryptsAll
  simp only [faults.exists_encryptEntry_iff haes, Prod.forall, hcopy, and_imp]

/-- A change of the password is authenticated and all or nothing exactly if, whenever it may proceed, the old password
    was the current one and no encryption of a stored key under the new one fails. -/
theorem secureChange_iff (oldPassword newPassword : Bytes) (draw newSalt : Salt) (draws : Nat → IV × UInt64) :
    ks.SecureChange unlocking faults password added oldPassword newPassword draw newSalt draws ↔
      ∀ key newKek, ks.Proceeds unlocking faults oldPassword newPassword draw newSalt key newKek →
        oldPassword = password ∧ ∀ (i : Nat) address k, ks.getAddresses[i]? = some address → added address = some k →
          faults.encrypt newKek.val (getPrivKey (some k)) (draws i).1 = none := by
  constructor
  · intro hsecure key newKek hproceeds
    obtain ⟨copies, hreaches⟩ := (exists_reachesLoop_iff unlocking faults).mpr ⟨key, hproceeds⟩
    obtain ⟨rfl, hencrypts⟩ := hunder.right_of_reaches unlocking faults hreaches hsecure
    exact ⟨rfl, (encryptsAll_iff faults haes hreaches.addresses (hunder.copies_eq unlocking faults haes hreaches) _ _).mp
      hencrypts⟩
  · intro hcondition
    by_cases hreaches : ∃ copies newKek, ks.ReachesLoop unlocking faults oldPassword newPassword draw newSalt copies newKek
    · obtain ⟨copies, newKek, hreaches⟩ := hreaches
      obtain ⟨key, hproceeds⟩ := (exists_reachesLoop_iff unlocking faults).mp ⟨copies, hreaches⟩
      obtain ⟨rfl, hencrypts⟩ := hcondition key newKek hproceeds
      exact hunder.secureChange_of_reaches unlocking faults haes hreaches
        ((encryptsAll_iff faults haes hreaches.addresses (hunder.copies_eq unlocking faults haes hreaches) _ _).mpr hencrypts)
    · exact hunder.secureChange_of_not_reaches unlocking faults haes (fun copies newKek h => hreaches ⟨copies, newKek, h⟩) draws

end CKeystore

end Outcome

end Faults

section

attribute [local instance] markedCipher

def noFaults : Faults := ⟨fun _ _ => false, fun _ _ _ => none, fun _ _ _ _ => none⟩

/-- Every encryption fails. -/
def encryptFaults : Faults := ⟨fun _ _ => false, fun _ _ _ => some "AES-256-GCM encrypt failed", fun _ _ _ _ => none⟩

/-- A keystore unlocked with its password, with one key. -/
def keyedStore : CKeystore :=
  ((({} : CKeystore).unlock (ascii "alpha") (markedTag 7)).2.addKey ⟨some oneKey, emptyAddress⟩ zeroIV 1).2

def keyedAdded : Address → Option PrivKey := Function.update (fun _ => none) emptyAddress (some oneKey)

theorem under_keyedStore : ∃ kek, keyedStore.Under (ascii "alpha") keyedAdded kek := by
  obtain ⟨kek, hempty⟩ := CKeystore.under_empty ideal_markedCipher (ascii "alpha")
  obtain ⟨-, hlocked, k, hunlocked⟩ := hempty.unlock_succeeds ideal_markedCipher (.inr rfl) (markedTag 7)
  obtain ⟨ks', hadd, -, hunder⟩ := hunlocked.addKey ideal_markedCipher hlocked (rfl : KeyPair.key ⟨some oneKey, emptyAddress⟩ = _)
    zeroIV 1
  exact ⟨k, by rw [keyedStore, hadd]; exact hunder⟩

theorem reaches_noFaults (oldPassword : Bytes) :
    keyedStore.ReachesLoop noFaults noFaults oldPassword (ascii "beta") (markedTag 8) (markedTag 9)
      [(emptyAddress, oneKey)] (markedKey 1) := ⟨keyedStore, rfl, rfl, rfl⟩

theorem reaches_encryptFaults (oldPassword : Bytes) :
    keyedStore.ReachesLoop noFaults encryptFaults oldPassword (ascii "beta") (markedTag 8) (markedTag 9)
      [(emptyAddress, oneKey)] (markedKey 1) := ⟨keyedStore, rfl, rfl, rfl⟩

theorem secureChange_iff_keyed : AesGcm [] ∧ (∃ kek, keyedStore.Under (ascii "alpha") keyedAdded kek) ∧
    keyedStore.SecureChange noFaults noFaults (ascii "alpha") keyedAdded (ascii "alpha") (ascii "beta") (markedTag 8) (markedTag 9)
      fun _ => (zeroIV, 2) := by
  obtain ⟨kek, hunder⟩ := under_keyedStore
  refine ⟨aes_markedCipher, ⟨kek, hunder⟩, ?_⟩
  refine (CKeystore.secureChange_iff noFaults noFaults aes_markedCipher hunder _ _ _ _ _).mpr fun key newKek _ => ⟨rfl, ?_⟩
  exact fun _ _ _ _ _ => rfl

/-- An unlocked keystore changes its password whatever the old one is said to be, and an encryption that fails leaves
    it without its key. -/
theorem secureChange_fails_keyed : (∃ kek, keyedStore.Under (ascii "alpha") keyedAdded kek) ∧
    (¬keyedStore.SecureChange noFaults noFaults (ascii "alpha") keyedAdded (ascii "gamma") (ascii "beta") (markedTag 8) (markedTag 9)
      fun _ => (zeroIV, 2)) ∧
    ¬keyedStore.SecureChange noFaults encryptFaults (ascii "alpha") keyedAdded (ascii "alpha") (ascii "beta") (markedTag 8)
      (markedTag 9) fun _ => (zeroIV, 2) := by
  obtain ⟨kek, hunder⟩ := under_keyedStore
  refine ⟨⟨kek, hunder⟩, fun hsecure => ?_, fun hsecure => ?_⟩
  · have hsame := (hunder.right_of_reaches noFaults noFaults (reaches_noFaults _) hsecure).1
    exact absurd hsame (by decide)
  · have hall := (hunder.right_of_reaches noFaults encryptFaults (reaches_encryptFaults _) hsecure).2
    obtain ⟨entry, hentry⟩ := hall 0 _ rfl
    cases hentry

end

end cdx
