import Cdx.Lib.Transition
import Cdx.Wallet.Backup
import Cdx.Wallet.Recovery

namespace cdx

open Std (ExtTreeMap)
open transition (run Visits Takes)

section Wallet

variable [Crypto] [Secp256k1] [Cipher]

/-- The address that a call of `GenerateNewAddress` returns. -/
def CWallet.newAddress (w : CWallet) (draw : KeyDraw) : List Address :=
  match (w.generateNewAddress draw).1 with
  | .error _ => []
  | .ok kp => [kp.address]

omit [Cipher] in
theorem generatePair_cases (versionByte : UInt8) (bufs : List Bytes32) :
    (∃ e, generatePair versionByte bufs = .error e) ∨ ∃ k : PrivKey, generatePair versionByte bufs = .ok (k.pair versionByte) := by
  unfold generatePair
  cases generateKey 128 bufs with
  | error e => exact Or.inl ⟨e, rfl⟩
  | ok k => exact Or.inr ⟨k, rfl⟩

/-- A call of `GenerateNewAddress` that returns: a key of its own, and an `AddKey` that did not throw. -/
theorem CWallet.generateNewAddress_eq_ok {w w' : CWallet} {draw : KeyDraw} {kp : KeyPair}
    (hgenerate : w.generateNewAddress draw = (.ok kp, w')) :
    ∃ k : PrivKey, kp = k.pair w.versionByte ∧
      ∃ stored ks, w.keystore.addKey kp draw.iv draw.now = (.ok stored, ks) ∧ w' = { w with keystore := ks } := by
  unfold generateNewAddress at hgenerate
  rcases generatePair_cases w.versionByte draw.bufs with ⟨e, he⟩ | ⟨k, hk⟩
  · rw [he] at hgenerate
    cases hgenerate
  · rw [hk] at hgenerate
    simp only at hgenerate
    rcases hadd : w.keystore.addKey (k.pair w.versionByte) draw.iv draw.now with ⟨e | stored, ks⟩
    · rw [hadd] at hgenerate
      cases hgenerate
    · rw [hadd] at hgenerate
      cases hgenerate
      exact ⟨k, rfl, stored, ks, hadd, rfl⟩

/-- What `GenerateNewAddress` does: without a key nothing, and otherwise it returns the address of a key, stored or not. -/
theorem CWallet.generateNewAddress_cases (haes : AesGcm []) (w : CWallet) (draw : KeyDraw) :
    ((∃ e, generatePair w.versionByte draw.bufs = .error e) ∧ (w.generateNewAddress draw).2 = w ∧ w.newAddress draw = []) ∨
    ∃ k : PrivKey, generatePair w.versionByte draw.bufs = .ok (k.pair w.versionByte) ∧
      (w.generateNewAddress draw).2 =
        { w with keystore := (w.keystore.addKey (k.pair w.versionByte) draw.iv draw.now).2 } ∧
      w.newAddress draw = [(k.pair w.versionByte).address] := by
  unfold newAddress generateNewAddress
  rcases generatePair_cases w.versionByte draw.bufs with ⟨e, he⟩ | ⟨k, hk⟩
  · rw [he]
    exact Or.inl ⟨⟨e, rfl⟩, rfl, rfl⟩
  · refine Or.inr ⟨k, hk, ?_⟩
    rw [hk]
    rcases haes.addKey_cases w.keystore (k.pair w.versionByte) draw.iv draw.now with
      ⟨-, hadd⟩ | ⟨-, entry, -, hadd⟩ <;> simp only [hadd, and_self]

section Payment

variable [Sorting]

namespace CWallet

/-- The address that an attempt of `CreateTransaction` returns its change to. -/
def changeAddress (w : CWallet) (change : Int) (draw : KeyDraw) : List Address :=
  if change < 1000 then [] else w.newAddress draw

/-- The addresses that the attempts of `CreateTransaction` take from `GenerateNewAddress`. -/
def attemptAddresses (w : CWallet) (view : CCoinsView) (height : Int) (amountBase : Int64) (draws : Nat → KeyDraw)
    (attempt : Nat) : Nat → List Address
  | 0 => []
  | n + 1 =>
    match w.fund view height amountBase attempt with
    | .error _ => []
    | .ok funding =>
      w.changeAddress funding.change (draws attempt) ++
        match w.changeOutput funding.change (draws attempt) with
        | (.ok none, w) => w.attemptAddresses view height amountBase draws (attempt + 1) n
        | _ => []

def paymentAddresses (w : CWallet) (view : CCoinsView) (height : Int) (toAddress : Bytes) (amountBase : Int64)
    (draws : Nat → KeyDraw) : List Address :=
  if w.keystore.locked then []
  else
    match decodeAddress toAddress with
    | none => []
    | some _ => if amountBase ≤ 0 then [] else w.attemptAddresses view height amountBase draws 0 8

/-- What comes of at most one call of `GenerateNewAddress`. -/
def Generates (w w' : CWallet) (addresses : List Address) : Prop :=
  (w' = w ∧ addresses = []) ∨ ∃ draw, w' = (w.generateNewAddress draw).2 ∧ addresses = w.newAddress draw

omit [Sorting] in
/-- A new address decodes. -/
theorem decodeAddress_of_generateNewAddress {w w' : CWallet} {draw : KeyDraw} {kp : KeyPair}
    (hgenerate : w.generateNewAddress draw = (.ok kp, w')) :
    ∃ k : PrivKey, kp = k.pair w.versionByte ∧ decodeAddress kp.address.bytes = some (w.versionByte, k.hash160) := by
  obtain ⟨k, rfl, -⟩ := generateNewAddress_eq_ok hgenerate
  exact ⟨k, rfl, decodeAddress_hash160ToAddress k.hash160 w.versionByte⟩

omit [Sorting] in
/-- The change of an attempt goes nowhere or to a new address, so that no other attempt follows. -/
theorem changeOutput_spec (w : CWallet) (change : Int) (draw : KeyDraw) :
    (w.changeOutput change draw).1 ≠ .ok none ∧
      w.Generates (w.changeOutput change draw).2 (w.changeAddress change draw) := by
  unfold changeOutput changeAddress
  by_cases hdust : change < 1000
  · rw [if_pos hdust, if_pos hdust]
    refine ⟨?_, Or.inl ⟨rfl, rfl⟩⟩
    intro hnone
    cases hnone
  · rw [if_neg hdust, if_neg hdust]
    rcases hgenerate : w.generateNewAddress draw with ⟨result, w'⟩
    have hw' : w' = (w.generateNewAddress draw).2 := congrArg Prod.snd hgenerate.symm
    cases result with
    | error e =>
      refine ⟨?_, Or.inr ⟨draw, hw', rfl⟩⟩
      intro hnone
      cases hnone
    | ok kp =>
      obtain ⟨k, -, hdecoded⟩ := decodeAddress_of_generateNewAddress hgenerate
      simp only [hdecoded, Option.map_some]
      refine ⟨?_, Or.inr ⟨draw, hw', rfl⟩⟩
      intro hnone
      cases hnone

theorem attempts_spec (w : CWallet) (view : CCoinsView) (height : Int) (toHash : Hash160)
    (amountBase : Int64) (draws : Nat → KeyDraw) (attempt n : Nat) :
    w.Generates (w.attempts view height toHash amountBase draws attempt n).2
      (w.attemptAddresses view height amountBase draws attempt n) := by
  cases n with
  | zero => exact Or.inl ⟨rfl, rfl⟩
  | succ n =>
    unfold attempts attemptAddresses
    cases w.fund view height amountBase attempt with
    | error e => exact Or.inl ⟨rfl, rfl⟩
    | ok funding =>
      obtain ⟨hsome, hgenerates⟩ := w.changeOutput_spec funding.change (draws attempt)
      simp only
      generalize w.changeOutput funding.change (draws attempt) = output at hsome hgenerates ⊢
      rcases output with ⟨e | outputs | outputs, w'⟩
      · simpa only [List.append_nil] using hgenerates
      · exact absurd rfl hsome
      · simpa only [List.append_nil] using hgenerates

/-- A payment calls `GenerateNewAddress` at most once, and only while the wallet is unlocked. -/
theorem createTransaction_spec (w : CWallet) (view : CCoinsView) (height : Int) (toAddress : Bytes)
    (amountBase : Int64) (draws : Nat → KeyDraw) :
    ((w.createTransaction view height toAddress amountBase draws).2 = w ∧
      w.paymentAddresses view height toAddress amountBase draws = []) ∨
    (w.keystore.locked = false ∧ w.Generates (w.createTransaction view height toAddress amountBase draws).2
      (w.paymentAddresses view height toAddress amountBase draws)) := by
  unfold createTransaction paymentAddresses
  by_cases hlocked : w.keystore.locked = true
  · rw [if_pos hlocked, if_pos hlocked]
    exact Or.inl ⟨rfl, rfl⟩
  · rw [if_neg hlocked, if_neg hlocked]
    refine Or.inr ⟨Bool.eq_false_of_not_eq_true hlocked, ?_⟩
    cases decodeAddress toAddress with
    | none => exact Or.inl ⟨rfl, rfl⟩
    | some decoded =>
      simp only
      split
      · exact Or.inl ⟨rfl, rfl⟩
      · exact w.attempts_spec view height decoded.2 amountBase draws 0 8

end CWallet

end Payment

/-- The operations on a wallet, each with what it draws from the random source and the clock. -/
inductive WalletOperation where
  | unlock (password : Bytes) (draw : Salt)
  | lock
  | changePassword (oldPassword newPassword : Bytes) (draw newSalt : Salt) (draws : Nat → IV × UInt64)
  | importKey (kp : KeyPair) (iv : IV) (now : UInt64)
  | importWIF (wif : Bytes) (iv : IV) (now : UInt64)
  | generateNewAddress (draw : KeyDraw)
  | createTransaction (view : CCoinsView) (height : Int) (toAddress : Bytes) (amountBase : Int64) (draws : Nat → KeyDraw)

/-- A wallet, the addresses that `GenerateNewAddress` has returned, and the key with which it was last unlocked. -/
structure WalletSession where
  wallet : CWallet
  issued : List Address := []
  key : Bytes := []

namespace WalletSession

variable [Sorting]

def next (s : WalletSession) (wallet : CWallet) (addresses : List Address) : WalletSession where
  wallet := wallet
  issued := s.issued ++ addresses
  key := wallet.keystore.lastKey s.key

def step (s : WalletSession) : WalletOperation → Option WalletSession
  | .unlock password draw =>
    some (s.next { s.wallet with keystore := (s.wallet.keystore.unlock password draw).2 } [])
  | .lock => some (s.next { s.wallet with keystore := s.wallet.keystore.lock } [])
  | .changePassword oldPassword newPassword draw newSalt draws =>
    some (s.next { s.wallet with
      keystore := (s.wallet.keystore.changePassword oldPassword newPassword draw newSalt draws).2 } [])
  | .importKey kp iv now => some (s.next (s.wallet.importKey kp iv now).2 [])
  | .importWIF wif iv now => some (s.next (s.wallet.importWIF wif iv now).2 [])
  | .generateNewAddress draw => some (s.next (s.wallet.generateNewAddress draw).2 (s.wallet.newAddress draw))
  | .createTransaction view height toAddress amountBase draws =>
    some (s.next (s.wallet.createTransaction view height toAddress amountBase draws).2
      (s.wallet.paymentAddresses view height toAddress amountBase draws))

/-- No address was handed out without its key. -/
def Kept (s : WalletSession) : Prop := ∀ address ∈ s.issued, s.wallet.keystore.Keeps s.key address

/-- Once an address is handed out, the wallet is unlocked with the key with which it was unlocked before. -/
def RightKey (s : WalletSession) : WalletOperation → Prop
  | .unlock password draw => s.issued ≠ [] → s.wallet.keystore.RightPassword s.key password draw
  | .changePassword oldPassword _ draw _ _ =>
    s.issued ≠ [] → s.wallet.keystore.locked = true → s.wallet.keystore.RightPassword s.key oldPassword draw
  | _ => True

/-- An address is handed out by an unlocked wallet, or the wallet keeps it already; and the key of no
    address handed out is replaced by a key of another one. -/
def Guard (s : WalletSession) : WalletOperation → Prop
  | .generateNewAddress draw => ∀ kp, generatePair s.wallet.versionByte draw.bufs = .ok kp →
      s.wallet.keystore.locked = false ∨ s.wallet.keystore.Keeps s.key kp.address
  | .importKey kp _ _ => s.wallet.keystore.locked = false → kp.address ∈ s.issued →
      ∃ k, kp.key = some k ∧ k.Owns kp.address
  | _ => True

/-- The key that the session remembers is the one in use. -/
def Current (s : WalletSession) : Prop := s.wallet.keystore.lastKey s.key = s.key

omit [Crypto] [Secp256k1] [Cipher] [Sorting] in
theorem current_next (s : WalletSession) (wallet : CWallet) (addresses : List Address) : (s.next wallet addresses).Current :=
  wallet.keystore.lastKey_lastKey s.key

omit [Sorting] in
theorem kept_next_iff {s : WalletSession} {wallet : CWallet} (hlast : wallet.keystore.lastKey s.key = s.key)
    (addresses : List Address) :
    (s.next wallet addresses).Kept ↔ ∀ address ∈ s.issued ++ addresses, wallet.keystore.Keeps s.key address := by
  unfold Kept next
  rw [hlast]

section Steps

variable (haes : AesGcm []) {s : WalletSession}
include haes

omit [Sorting] in
/-- An address that is handed out is kept exactly under the guard. -/
theorem kept_generateNewAddress_iff (hcurrent : s.Current) (hkept : s.Kept) (draw : KeyDraw) :
    (s.next (s.wallet.generateNewAddress draw).2 (s.wallet.newAddress draw)).Kept ↔ s.Guard (.generateNewAddress draw) := by
  unfold Guard
  rcases s.wallet.generateNewAddress_cases haes draw with ⟨⟨e, he⟩, hwallet, hissued⟩ | ⟨k, hk, hwallet, hissued⟩
  · rw [hwallet, hissued, kept_next_iff hcurrent, List.append_nil]
    refine iff_of_true hkept ?_
    intro kp hkp
    rw [he] at hkp
    cases hkp
  · have hlast : (s.wallet.keystore.addKey (k.pair s.wallet.versionByte) draw.iv draw.now).2.lastKey s.key = s.key :=
      (CKeystore.lastKey_addKey haes _ _ _).trans hcurrent
    rw [hwallet, hissued, kept_next_iff hlast]
    simp only [hk, Except.ok.injEq, forall_eq', List.forall_mem_append, List.forall_mem_singleton]
    have hown : ∃ k', (k.pair s.wallet.versionByte).key = some k' ∧ k'.Owns (k.pair s.wallet.versionByte).address :=
      ⟨k, rfl, k.owns_pair s.wallet.versionByte⟩
    have hothers := (CKeystore.keeps_addKey_iff haes hcurrent hkept (k.pair s.wallet.versionByte) draw.iv draw.now).mpr
      fun _ _ => hown
    rw [and_iff_right hothers]
    rcases haes.addKey_cases s.wallet.keystore (k.pair s.wallet.versionByte) draw.iv draw.now with
      ⟨hlocked, hadd⟩ | ⟨hlocked, -⟩
    · rw [hadd, hlocked]
      exact ⟨Or.inr, fun h => h.resolve_left Bool.true_eq_false_eq_False⟩
    · have hkey := CKeystore.kek_of_lastKey hcurrent hlocked
      exact iff_of_true ((CKeystore.keeps_addKey_self haes hlocked hkey _ _ _).mpr hown) (Or.inl hlocked)

omit [Sorting] in
/-- `ImportKey` spoils nothing exactly under the guard. -/
theorem kept_importKey_iff (hcurrent : s.Current) (hkept : s.Kept) (kp : KeyPair) (iv : IV) (now : UInt64) :
    (s.next (s.wallet.importKey kp iv now).2 []).Kept ↔ s.Guard (.importKey kp iv now) := by
  unfold CWallet.importKey
  split
  next hnil =>
    rw [kept_next_iff hcurrent, List.append_nil]
    refine iff_of_true hkept ?_
    intro hlocked hmem
    obtain ⟨k, -, v, hv⟩ := (hkept kp.address hmem).2.1 hlocked
    rw [hnil] at hv
    cases hv
  · have hlast : (s.wallet.keystore.addKey kp iv now).2.lastKey s.key = s.key :=
      (CKeystore.lastKey_addKey haes _ _ _).trans hcurrent
    rw [kept_next_iff hlast, List.append_nil]
    exact CKeystore.keeps_addKey_iff haes hcurrent hkept kp iv now

omit [Sorting] in
/-- A key in WIF comes with its own address. -/
theorem kept_importWIF (hcurrent : s.Current) (hkept : s.Kept) (wif : Bytes) (iv : IV) (now : UInt64) :
    (s.next (s.wallet.importWIF wif iv now).2 []).Kept := by
  unfold CWallet.importWIF
  split
  · rw [kept_next_iff hcurrent, List.append_nil]
    exact hkept
  next v priv hwif =>
    refine (kept_importKey_iff haes hcurrent hkept (fromPrivKey priv s.wallet.versionByte) iv now).mpr ?_
    unfold fromPrivKey
    split
    · intro hlocked hmem
      obtain ⟨k, -, v, hv⟩ := (hkept emptyAddress hmem).2.1 hlocked
      cases hv
    next k hk => exact fun _ _ => ⟨k, rfl, k.owns_pair s.wallet.versionByte⟩

/-- What each step does to a wallet that has kept what it handed out. -/
theorem step_spec (hcurrent : s.Current) (hkept : s.Kept) {op : WalletOperation} (hright : s.RightKey op)
    {s' : WalletSession} (hstep : s.step op = some s') : s'.Current ∧ (s'.Kept ↔ s.Guard op) := by
  cases op with
  | unlock password draw =>
    cases hstep
    refine ⟨current_next _ _ _, iff_of_true ?_ trivial⟩
    intro address hmem
    rw [next, List.append_nil] at hmem
    obtain ⟨hlast, hkeeps⟩ := (hkept address hmem).unlock hcurrent (hright (List.ne_nil_of_mem hmem))
    simp only [next, hlast]
    exact hkeeps
  | lock =>
    cases hstep
    refine ⟨current_next _ _ _, iff_of_true ?_ trivial⟩
    intro address hmem
    rw [next, List.append_nil] at hmem
    exact (hkept address hmem).lock
  | changePassword oldPassword newPassword draw newSalt draws =>
    cases hstep
    refine ⟨current_next _ _ _, iff_of_true ?_ trivial⟩
    intro address hmem
    rw [next, List.append_nil] at hmem
    exact (hkept address hmem).changePassword haes hcurrent (hright (List.ne_nil_of_mem hmem)) newPassword newSalt draws
  | importKey kp iv now =>
    cases hstep
    exact ⟨current_next _ _ _, kept_importKey_iff haes hcurrent hkept kp iv now⟩
  | importWIF wif iv now =>
    cases hstep
    exact ⟨current_next _ _ _, iff_of_true (kept_importWIF haes hcurrent hkept wif iv now) trivial⟩
  | generateNewAddress draw =>
    cases hstep
    exact ⟨current_next _ _ _, kept_generateNewAddress_iff haes hcurrent hkept draw⟩
  | createTransaction view height toAddress amountBase draws =>
    cases hstep
    refine ⟨current_next _ _ _, iff_of_true ?_ trivial⟩
    rcases s.wallet.createTransaction_spec view height toAddress amountBase draws with
      ⟨hwallet, hissued⟩ | ⟨hlocked, ⟨hwallet, hissued⟩ | ⟨draw, hwallet, hissued⟩⟩
    · rw [hwallet, hissued, kept_next_iff hcurrent, List.append_nil]
      exact hkept
    · rw [hwallet, hissued, kept_next_iff hcurrent, List.append_nil]
      exact hkept
    · rw [hwallet, hissued]
      exact (kept_generateNewAddress_iff haes hcurrent hkept draw).mpr fun _ _ => Or.inl hlocked

end Steps

/-- Every operation has a result. -/
theorem run_eq_some (s : WalletSession) (operations : List WalletOperation) :
    ∃ final, run WalletSession.step s operations = some final := by
  have htotal (s : WalletSession) (op : WalletOperation) : ∃ s', s.step op = some s' := by cases op <;> exact ⟨_, rfl⟩
  have hsteps : ∀ s op, op ∈ operations → True → ∃ s', WalletSession.step s op = some s' ∧ True :=
    fun s op _ _ => (htotal s op).imp fun _ hs' => ⟨hs', trivial⟩
  obtain ⟨final, hrun, -⟩ := transition.run_total (I := fun _ => True) hsteps (trivial : (fun _ => True) s)
  exact ⟨final, hrun⟩

end WalletSession

/-- A new wallet, or one with the keystore of a file. -/
def CWallet.Fresh (w : CWallet) : Prop := w.keystore = {} ∨ ∃ data, deserializeKeystore data = .ok w.keystore

omit [Crypto] [Secp256k1] [Cipher] in
theorem locked_of_deserializeKeystore {data : Bytes} {ks : CKeystore} (hread : deserializeKeystore data = .ok ks) :
    ks.locked = true := by
  unfold deserializeKeystore at hread
  cases hrun : readKeystore.run ⟨data, 0⟩ with
  | error e =>
    rw [hrun] at hread
    cases hread
  | ok read =>
    obtain ⟨found, final⟩ := read
    rw [hrun] at hread
    cases hread
    obtain ⟨_, _, -, hrest⟩ := codec.run_bind_eq_ok hrun
    obtain ⟨_, _, -, hrest⟩ := codec.run_bind_eq_ok hrest
    obtain ⟨salt, _, -, hrest⟩ := codec.run_bind_eq_ok hrest
    obtain ⟨n, _, -, hrest⟩ := codec.run_bind_eq_ok hrest
    obtain ⟨entries, _, -, hrest⟩ := codec.run_bind_eq_ok hrest
    cases hrest
    rfl

omit [Crypto] [Secp256k1] [Cipher] in
theorem CWallet.Fresh.locked {w : CWallet} (hfresh : w.Fresh) : w.keystore.locked = true := by
  rcases hfresh with hnew | ⟨data, hread⟩
  · rw [hnew]
  · exact locked_of_deserializeKeystore hread

/-- In a run of wallet operations in which the wallet is unlocked with the key that it had before, no address is handed out
    without its key exactly if every step meets the guard. -/
theorem issued_kept_iff [Sorting] (haes : AesGcm []) {w : CWallet} (hfresh : w.Fresh) {operations : List WalletOperation}
    (hright : ∀ s op, Takes WalletSession.step { wallet := w } operations s op → s.RightKey op) :
    (∀ s, Visits WalletSession.step { wallet := w } operations s → s.Kept) ↔
      ∀ s op, Takes WalletSession.step { wallet := w } operations s op → s.Guard op := by
  have hstart : ({ wallet := w } : WalletSession).Current := by
    unfold WalletSession.Current CKeystore.lastKey
    rw [if_pos hfresh.locked]
  have hkept : ({ wallet := w } : WalletSession).Kept := fun address hmem => absurd hmem List.not_mem_nil
  obtain ⟨final, hrun⟩ := WalletSession.run_eq_some { wallet := w } operations
  refine transition.visits_iff_takes_of_taken (I := WalletSession.Current) ?_ ?_ hstart hkept hrun
  · exact fun s op s' htakes hcurrent hkept hstep => (WalletSession.step_spec haes hcurrent hkept (hright s op htakes) hstep).1
  · exact fun s op s' htakes hcurrent hkept hstep => (WalletSession.step_spec haes hcurrent hkept (hright s op htakes) hstep).2

end Wallet

section

attribute [local instance] markedCipher

attribute [local instance] toolCrypto plainCurve mergeSorting

/-- The random source and the clock when the smallest key is drawn. -/
def oneDraw : KeyDraw := ⟨[getPrivKey (some oneKey)], zeroIV, 1⟩

/-- The wallet is unlocked, hands out an address, is locked, and is unlocked again. -/
def issuingRun : List WalletOperation :=
  [.unlock (ascii "alpha") (markedTag 7), .generateNewAddress oneDraw, .lock, .unlock (ascii "alpha") (markedTag 8)]

theorem issued_kept_unlocked : CWallet.Fresh {} ∧
    (∀ s, Visits WalletSession.step { wallet := {} } issuingRun s → s.Kept) ∧
    (run WalletSession.step { wallet := {} } issuingRun).map (fun s => (s.issued.length, s.wallet.keystore.locked)) =
      some (1, false) := by
  have hfresh : CWallet.Fresh {} := Or.inl rfl
  have hright : ∀ s op, Takes WalletSession.step { wallet := {} } issuingRun s op → s.RightKey op := by
    rintro s op (⟨rfl, rfl⟩ | ⟨_, hfirst, ⟨rfl, rfl⟩ | ⟨_, hsecond, ⟨rfl, rfl⟩ | ⟨_, hthird, ⟨rfl, rfl⟩ | ⟨_, _, hnone⟩⟩⟩⟩)
    · exact fun hissued => absurd rfl hissued
    · trivial
    · trivial
    · cases hfirst
      cases hsecond
      cases hthird
      rintro - k hk -
      cases hk
      decide +kernel
    · cases hnone
  refine ⟨hfresh, (issued_kept_iff aes_markedCipher hfresh hright).mpr ?_, by decide +kernel⟩
  rintro s op (⟨rfl, rfl⟩ | ⟨next, hnext, ⟨rfl, rfl⟩ | ⟨_, _, ⟨rfl, rfl⟩ | ⟨_, _, ⟨rfl, rfl⟩ | ⟨_, _, hnone⟩⟩⟩⟩)
  · trivial
  · cases hnext
    exact fun _ _ => Or.inl (by decide +kernel)
  · trivial
  · trivial
  · cases hnone

/-- A new wallet, still locked, hands out an address that it does not store. -/
theorem not_issued_kept_locked : AesGcm [] ∧ CWallet.Fresh {} ∧
    (∀ s op, Takes WalletSession.step { wallet := {} } [.generateNewAddress oneDraw] s op → s.RightKey op) ∧
    ¬ ∀ s, Visits WalletSession.step { wallet := {} } [.generateNewAddress oneDraw] s → s.Kept := by
  refine ⟨aes_markedCipher, Or.inl rfl, ?_, ?_⟩
  · rintro s op (⟨rfl, rfl⟩ | ⟨_, _, hnone⟩)
    · trivial
    · cases hnone
  intro hall
  have hpair : generatePair 0x1E oneDraw.bufs = .ok (oneKey.pair 0x1E) := by
    rw [generatePair, oneDraw, generateKey, getPrivKey, setPrivKey_val]
    rfl
  have hstep : WalletSession.step { wallet := {} } (.generateNewAddress oneDraw) =
      some ⟨{}, [(oneKey.pair 0x1E).address], []⟩ := by
    rw [WalletSession.step, CWallet.newAddress, CWallet.generateNewAddress, hpair]
    rfl
  have hkept := hall _ (Or.inr ⟨_, hstep, rfl⟩)
  exact ExtTreeMap.not_mem_empty (hkept _ List.mem_cons_self).1

end

end cdx
