import Cdx.Wallet.Wallet

namespace cdx

open Std

/-- What `GetAddressBalance` counts for one hash. -/
structure AddressBalance where
  confirmed : Int := 0
  unconfirmed : Int := 0
  immature : Int := 0

structure Balance where
  confirmed : Int := 0
  unconfirmed : Int := 0
  immature : Int := 0
  spendable : Int := 0

/-- One coin of the loop of `GetAddressBalance`. -/
def AddressBalance.count (hash160 : Hash160) (currentHeight : Int) (bal : AddressBalance) (kv : COutPoint × CUTXO) :
    Except WalletFailure AddressBalance :=
  if extractP2PKHHash kv.2.scriptPubKey.val ≠ some hash160.val then .ok bal
  else if kv.2.isCoinbase = true ∧ currentHeight - kv.2.height < COINBASE_MATURITY then do
    let immature ← signed64 (bal.immature + kv.2.value.toInt)
    .ok { bal with immature }
  else if kv.2.height > currentHeight then do
    let unconfirmed ← signed64 (bal.unconfirmed + kv.2.value.toInt)
    .ok { bal with unconfirmed }
  else do
    let confirmed ← signed64 (bal.confirmed + kv.2.value.toInt)
    .ok { bal with confirmed }

/-- The three sums of a hash, and their sum. -/
def CCoinsView.getAddressBalance (view : CCoinsView) (hash160 : Hash160) (currentHeight : Int) :
    Except WalletFailure (AddressBalance × Int) := do
  let bal ← view.utxo.toList.foldlM (AddressBalance.count hash160 currentHeight) {}
  let known ← signed64 (bal.confirmed + bal.unconfirmed)
  let all ← signed64 (known + bal.immature)
  .ok (bal, all)

/-- One address of the loop of `GetBalance`. -/
def Balance.add [Crypto] (versionByte : UInt8) (view : CCoinsView) (height : Int) (bal : Balance) (address : Address) :
    Except WalletFailure Balance :=
  match decodeAddress address.bytes with
  | none => .ok bal
  | some (v, h) =>
    if v ≠ versionByte then .ok bal
    else do
      let (one, _) ← view.getAddressBalance h height
      let confirmed ← signed64 (bal.confirmed + one.confirmed)
      let unconfirmed ← signed64 (bal.unconfirmed + one.unconfirmed)
      let immature ← signed64 (bal.immature + one.immature)
      .ok { bal with confirmed, unconfirmed, immature }

def CWallet.getBalance [Crypto] (w : CWallet) (view : CCoinsView) (height : Int) : Except WalletFailure Balance := do
  let bal ← w.keystore.getAddresses.foldlM (Balance.add w.versionByte view height) {}
  .ok { bal with spendable := bal.confirmed }

/-- A view without negative coins, without coins from the future, and within the supply. -/
structure CCoinsView.Settled (view : CCoinsView) (height : Int) : Prop where
  value_nonneg : ∀ out coin, view.getCoin out = some coin → 0 ≤ coin.value.toInt
  height_le : ∀ out coin, view.getCoin out = some coin → coin.height ≤ height
  total_le : view.totalValue ≤ MAX_MONEY

def coinsValue (entries : List (COutPoint × CUTXO)) : Int := (entries.map fun kv => kv.2.value.toInt).sum

@[simp] theorem coinsValue_nil : coinsValue [] = 0 := rfl

@[simp] theorem coinsValue_cons (kv : COutPoint × CUTXO) (entries : List (COutPoint × CUTXO)) :
    coinsValue (kv :: entries) = kv.2.value.toInt + coinsValue entries := by
  simp [coinsValue]

@[simp] theorem coinsValue_append (entries more : List (COutPoint × CUTXO)) :
    coinsValue (entries ++ more) = coinsValue entries + coinsValue more := by
  simp [coinsValue]

/-- The entries that pay to a hash, of those that satisfy `p`. -/
def payingTo (hash160 : Hash160) (p : CUTXO → Bool) (entries : List (COutPoint × CUTXO)) : List (COutPoint × CUTXO) :=
  entries.filter fun kv => decide (extractP2PKHHash kv.2.scriptPubKey.val = some hash160.val) && p kv.2

theorem coinsValue_nonneg {entries : List (COutPoint × CUTXO)} (hvalues : ∀ kv ∈ entries, 0 ≤ kv.2.value.toInt) :
    0 ≤ coinsValue entries := by
  apply List.sum_nonneg
  intro value hvalue
  obtain ⟨kv, hkv, rfl⟩ := List.mem_map.mp hvalue
  exact hvalues kv hkv

theorem signed64_of_bounds {v : Int} (hlow : 0 ≤ v) (hhigh : v ≤ INT64_MAX) : signed64 v = .ok v := by
  have hmin : INT64_MIN ≤ 0 := by decide
  rw [signed64, if_pos ⟨hmin.trans hlow, hhigh⟩]

theorem isSpendable_iff {coin : CUTXO} {height : Int} : coin.isSpendable height = true ↔
    ¬ (coin.isCoinbase = true ∧ height - coin.height < COINBASE_MATURITY) := by
  rw [CUTXO.isSpendable, Bool.not_eq_true', ← Bool.not_eq_true, Bool.and_eq_true, decide_eq_true_eq]

/-- Among coins that are not from the future, one is either spendable or immature. -/
theorem count_eq {hash160 : Hash160} {height : Int} {bal : AddressBalance} {kv : COutPoint × CUTXO}
    (hvalue : 0 ≤ kv.2.value.toInt) (hheight : kv.2.height ≤ height) (hconfirmed : 0 ≤ bal.confirmed)
    (himmature : 0 ≤ bal.immature) (hbound : bal.confirmed + bal.immature + kv.2.value.toInt ≤ INT64_MAX) :
    AddressBalance.count hash160 height bal kv = .ok
      { bal with
        confirmed := bal.confirmed + coinsValue (payingTo hash160 (·.isSpendable height) [kv])
        immature := bal.immature + coinsValue (payingTo hash160 (!·.isSpendable height) [kv]) } := by
  unfold AddressBalance.count
  split
  next hother => simp [payingTo, hother]
  next hown =>
    rw [not_not] at hown
    split
    next hyoung =>
      have hspendable : ¬ kv.2.isSpendable height = true := by rwa [isSpendable_iff, not_not]
      rw [signed64_of_bounds (by omega) (by omega)]
      simp [payingTo, hown, hspendable, bind_ok]
    next hold =>
      have hspendable : kv.2.isSpendable height = true := by rwa [isSpendable_iff]
      rw [if_neg (by omega), signed64_of_bounds (by omega) (by omega)]
      simp [payingTo, hown, hspendable, bind_ok]

theorem coinsValue_payingTo_cons (hash160 : Hash160) (p : CUTXO → Bool) (kv : COutPoint × CUTXO)
    (entries : List (COutPoint × CUTXO)) : coinsValue (payingTo hash160 p (kv :: entries)) =
      coinsValue (payingTo hash160 p [kv]) + coinsValue (payingTo hash160 p entries) := by
  rw [← coinsValue_append]
  exact congrArg coinsValue (List.filter_append [kv] entries)

/-- A coin is counted at most once. -/
theorem payingTo_split (hash160 : Hash160) (p : CUTXO → Bool) {entries : List (COutPoint × CUTXO)}
    (hvalues : ∀ kv ∈ entries, 0 ≤ kv.2.value.toInt) :
    0 ≤ coinsValue (payingTo hash160 p entries) ∧ 0 ≤ coinsValue (payingTo hash160 (!p ·) entries) ∧
      coinsValue (payingTo hash160 p entries) + coinsValue (payingTo hash160 (!p ·) entries) ≤ coinsValue entries := by
  refine ⟨coinsValue_nonneg fun kv hkv => hvalues kv (List.mem_filter.mp hkv).1,
    coinsValue_nonneg fun kv hkv => hvalues kv (List.mem_filter.mp hkv).1, ?_⟩
  induction entries with
  | nil => simp [payingTo]
  | cons kv entries ih =>
    rw [List.forall_mem_cons] at hvalues
    have hfirst : coinsValue (payingTo hash160 p [kv]) + coinsValue (payingTo hash160 (!p ·) [kv]) ≤ kv.2.value.toInt := by
      by_cases hown : extractP2PKHHash kv.2.scriptPubKey.val = some hash160.val
      · cases hp : p kv.2 <;> simp [payingTo, hown, hp]
      · simp [payingTo, hown, hvalues.1]
    have hrest := ih hvalues.2
    have hkept := coinsValue_payingTo_cons hash160 p kv entries
    have hleft := coinsValue_payingTo_cons hash160 (!p ·) kv entries
    rw [coinsValue_cons]
    omega

/-- Immature coins aside, the loop counts what is spendable as confirmed. -/
theorem count_fold {hash160 : Hash160} {height : Int} {entries : List (COutPoint × CUTXO)} {bal : AddressBalance}
    (hvalues : ∀ kv ∈ entries, 0 ≤ kv.2.value.toInt ∧ kv.2.height ≤ height) (hconfirmed : 0 ≤ bal.confirmed)
    (himmature : 0 ≤ bal.immature) (hbound : bal.confirmed + bal.immature + coinsValue entries ≤ INT64_MAX) :
    entries.foldlM (AddressBalance.count hash160 height) bal = .ok
      { bal with
        confirmed := bal.confirmed + coinsValue (payingTo hash160 (·.isSpendable height) entries)
        immature := bal.immature + coinsValue (payingTo hash160 (!·.isSpendable height) entries) } := by
  induction entries generalizing bal with
  | nil => simp [payingTo, pure, Except.pure]
  | cons kv entries ih =>
    rw [List.forall_mem_cons] at hvalues
    obtain ⟨⟨hvalue, hheight⟩, hrest⟩ := hvalues
    rw [coinsValue_cons] at hbound
    have hothers := coinsValue_nonneg fun kv hkv => (hrest kv hkv).1
    obtain ⟨hfirst, hsecond, hsplit⟩ := payingTo_split hash160 (·.isSpendable height) (List.forall_mem_singleton.mpr hvalue)
    rw [coinsValue_cons, coinsValue_nil, Int.add_zero] at hsplit
    have hspendable := coinsValue_payingTo_cons hash160 (·.isSpendable height) kv entries
    have hyoung := coinsValue_payingTo_cons hash160 (!·.isSpendable height) kv entries
    rw [List.foldlM_cons, count_eq hvalue hheight hconfirmed himmature (by omega), bind_ok, hspendable, hyoung,
      ← Int.add_assoc, ← Int.add_assoc]
    apply ih hrest
    all_goals
      simp only
      omega

namespace CCoinsView.Settled

variable {view : CCoinsView} {height : Int} (hsettled : view.Settled height)
include hsettled

theorem mem_entries {kv : COutPoint × CUTXO} (hkv : kv ∈ view.utxo.toList) :
    0 ≤ kv.2.value.toInt ∧ kv.2.height ≤ height := by
  have hcoin : view.getCoin kv.1 = some kv.2 := ExtTreeMap.mem_toList_iff_getElem?_eq_some.mp hkv
  exact ⟨hsettled.value_nonneg _ _ hcoin, hsettled.height_le _ _ hcoin⟩

/-- Distinct coins of the view are worth no more than the supply, so their sum does not overflow. -/
theorem coinsValue_le {entries : List (COutPoint × CUTXO)} (hnodup : entries.Nodup) (hentries : entries ⊆ view.utxo.toList) :
    coinsValue entries ≤ INT64_MAX := by
  have hmax : MAX_MONEY ≤ INT64_MAX := by decide
  have htotal := orderedMap.sum_le_total (f := fun coin : CUTXO => coin.value.toInt) hsettled.value_nonneg hnodup
    fun kv hkv => ExtTreeMap.mem_toList_iff_getElem?_eq_some.mp (hentries hkv)
  exact htotal.trans (hsettled.total_le.trans hmax)

theorem getAddressBalance_eq (hash160 : Hash160) : ∃ all, view.getAddressBalance hash160 height = .ok
    ({ confirmed := coinsValue (payingTo hash160 (·.isSpendable height) view.utxo.toList)
       immature := coinsValue (payingTo hash160 (!·.isSpendable height) view.utxo.toList) }, all) := by
  have hall := hsettled.coinsValue_le (orderedMap.nodup_toList view.utxo) (List.Subset.refl _)
  obtain ⟨hspendable, hyoung, hsplit⟩ :=
    payingTo_split hash160 (·.isSpendable height) fun kv hkv => (hsettled.mem_entries hkv).1
  have hfold : view.utxo.toList.foldlM (AddressBalance.count hash160 height) {} = .ok
      { confirmed := coinsValue (payingTo hash160 (·.isSpendable height) view.utxo.toList)
        immature := coinsValue (payingTo hash160 (!·.isSpendable height) view.utxo.toList) } := by
    rw [count_fold (fun kv hkv => hsettled.mem_entries hkv) le_rfl le_rfl (by simpa using hall)]
    simp
  rw [getAddressBalance, hfold, bind_ok]
  simp only
  rw [Int.add_zero, signed64_of_bounds hspendable (by omega), bind_ok, signed64_of_bounds (by omega) (by omega)]
  exact ⟨_, rfl⟩

end CCoinsView.Settled

section Balances

variable [Crypto]

/-- The hash behind an address, if the address is one of the wallet's network. -/
def CWallet.ownHash (w : CWallet) (address : Address) : Option Hash160 :=
  (decodeAddress address.bytes).bind fun vh => if vh.1 = w.versionByte then some vh.2 else none

/-- The coins at some addresses, of those that satisfy `p`. -/
def CWallet.coinsAt (w : CWallet) (view : CCoinsView) (p : CUTXO → Bool) (addresses : List Address) : List (COutPoint × CUTXO) :=
  addresses.flatMap fun address => (w.ownHash address).elim [] fun h => payingTo h p view.utxo.toList

theorem add_eq {w : CWallet} {view : CCoinsView} {height : Int} (hsettled : view.Settled height) {bal : Balance}
    {address : Address} (hconfirmed : 0 ≤ bal.confirmed) (himmature : 0 ≤ bal.immature) (hunconfirmed : bal.unconfirmed = 0)
    (hspendable : bal.confirmed + coinsValue (w.coinsAt view (·.isSpendable height) [address]) ≤ INT64_MAX)
    (hyoung : bal.immature + coinsValue (w.coinsAt view (!·.isSpendable height) [address]) ≤ INT64_MAX) :
    Balance.add w.versionByte view height bal address = .ok
      { bal with
        confirmed := bal.confirmed + coinsValue (w.coinsAt view (·.isSpendable height) [address])
        immature := bal.immature + coinsValue (w.coinsAt view (!·.isSpendable height) [address]) } := by
  unfold Balance.add
  unfold CWallet.coinsAt CWallet.ownHash at *
  cases hdecode : decodeAddress address.bytes with
  | none => simp [hdecode]
  | some vh =>
    obtain ⟨v, h⟩ := vh
    simp only [hdecode, Option.bind_some, List.flatMap_singleton] at hspendable hyoung ⊢
    split
    next hother => simp
    next hown =>
      rw [not_not] at hown
      rw [if_pos hown, Option.elim_some] at hspendable hyoung
      rw [if_pos hown, Option.elim_some, Option.elim_some]
      obtain ⟨all, hone⟩ := hsettled.getAddressBalance_eq h
      obtain ⟨hone0, hone1, -⟩ := payingTo_split h (·.isSpendable height) fun kv hkv => (hsettled.mem_entries hkv).1
      rw [hone, bind_ok]
      simp only
      rw [signed64_of_bounds (by omega) hspendable, bind_ok, hunconfirmed, Int.add_zero,
        signed64_of_bounds le_rfl (by decide), bind_ok, signed64_of_bounds (by omega) hyoung, bind_ok]

theorem coinsAt_cons (w : CWallet) (view : CCoinsView) (p : CUTXO → Bool) (address : Address) (addresses : List Address) :
    w.coinsAt view p (address :: addresses) = w.coinsAt view p [address] ++ w.coinsAt view p addresses := by
  simp [CWallet.coinsAt]

theorem coinsAt_subset (w : CWallet) (view : CCoinsView) (p : CUTXO → Bool) (addresses : List Address) :
    w.coinsAt view p addresses ⊆ view.utxo.toList := by
  intro kv hkv
  obtain ⟨address, -, hkv⟩ := List.mem_flatMap.mp hkv
  cases hown : w.ownHash address with
  | none => simp [hown] at hkv
  | some h =>
    rw [hown, Option.elim_some] at hkv
    exact (List.mem_filter.mp hkv).1

theorem add_fold {w : CWallet} {view : CCoinsView} {height : Int} (hsettled : view.Settled height) {bal : Balance}
    {addresses : List Address} (hconfirmed : 0 ≤ bal.confirmed) (himmature : 0 ≤ bal.immature)
    (hunconfirmed : bal.unconfirmed = 0)
    (hspendable : bal.confirmed + coinsValue (w.coinsAt view (·.isSpendable height) addresses) ≤ INT64_MAX)
    (hyoung : bal.immature + coinsValue (w.coinsAt view (!·.isSpendable height) addresses) ≤ INT64_MAX) :
    addresses.foldlM (Balance.add w.versionByte view height) bal = .ok
      { bal with
        confirmed := bal.confirmed + coinsValue (w.coinsAt view (·.isSpendable height) addresses)
        immature := bal.immature + coinsValue (w.coinsAt view (!·.isSpendable height) addresses) } := by
  have hnonneg (p : CUTXO → Bool) (addresses : List Address) : 0 ≤ coinsValue (w.coinsAt view p addresses) :=
    coinsValue_nonneg fun kv hkv => (hsettled.mem_entries (coinsAt_subset w view p addresses hkv)).1
  induction addresses generalizing bal with
  | nil => simp [CWallet.coinsAt, pure, Except.pure]
  | cons address addresses ih =>
    rw [coinsAt_cons, coinsValue_append] at hspendable hyoung
    have hfirst := hnonneg (·.isSpendable height) [address]
    have hfirst' := hnonneg (!·.isSpendable height) [address]
    have hrest := hnonneg (·.isSpendable height) addresses
    have hrest' := hnonneg (!·.isSpendable height) addresses
    rw [List.foldlM_cons, add_eq hsettled hconfirmed himmature hunconfirmed (by omega) (by omega), bind_ok,
      coinsAt_cons w view _ address addresses, coinsAt_cons w view _ address addresses, coinsValue_append, coinsValue_append,
      ← Int.add_assoc, ← Int.add_assoc]
    apply ih
    · exact Int.add_nonneg hconfirmed hfirst
    · exact Int.add_nonneg himmature hfirst'
    · exact hunconfirmed
    · rwa [Int.add_assoc]
    · rwa [Int.add_assoc]

/-- An address that `Hash160ToAddress` made is fixed by its hash. -/
theorem eq_of_ownHash {w : CWallet} {address : Address} {h : Hash160} (hmade : ∃ h v, address = hash160ToAddress h v)
    (hown : w.ownHash address = some h) : address = hash160ToAddress h w.versionByte := by
  obtain ⟨h', v, rfl⟩ := hmade
  rw [CWallet.ownHash, decodeAddress_hash160ToAddress, Option.bind_some] at hown
  split at hown
  next hversion =>
    cases hown
    exact congrArg _ hversion
  next => cases hown

/-- So no coin is found at two addresses. -/
theorem nodup_coinsAt {w : CWallet} {addresses : List Address} (hmade : ∀ address ∈ addresses, ∃ h v, address = hash160ToAddress h v)
    (hnodup : addresses.Nodup) (view : CCoinsView) (p : CUTXO → Bool) : (w.coinsAt view p addresses).Nodup := by
  rw [CWallet.coinsAt, List.nodup_flatMap]
  constructor
  · intro address _
    cases w.ownHash address with
    | none => exact List.nodup_nil
    | some h => exact (orderedMap.nodup_toList view.utxo).filter _
  · refine hnodup.pairwise_of_forall_ne ?_
    intro a ha b hb hne kv hkv hkv'
    simp only at hkv hkv'
    cases hown : w.ownHash a with
    | none => simp [hown] at hkv
    | some h =>
      cases hown' : w.ownHash b with
      | none => simp [hown'] at hkv'
      | some h' =>
        simp only [hown, hown', Option.elim_some, payingTo, List.mem_filter, Bool.and_eq_true, decide_eq_true_eq] at hkv hkv'
        have hsame : h = h' := Subtype.ext (Option.some.inj (hkv.2.1.symm.trans hkv'.2.1))
        apply hne
        rw [eq_of_ownHash (hmade a ha) hown, eq_of_ownHash (hmade b hb) hown', hsame]

end Balances

def selectedValue (selected : List SelectedInput) : Int := (selected.map fun s => s.coin.value.toInt).sum

@[simp] theorem selectedValue_nil : selectedValue [] = 0 := rfl

@[simp] theorem selectedValue_cons (s : SelectedInput) (selected : List SelectedInput) :
    selectedValue (s :: selected) = s.coin.value.toInt + selectedValue selected := by
  simp [selectedValue]

/-- The loop stops at the first coin with which the sum reaches the amount. -/
theorem takeCoins_spec {amount total : Int} {entries : List SelectedInput} (hvalues : ∀ e ∈ entries, 0 ≤ e.coin.value.toInt)
    (hnonneg : 0 ≤ total) (hbound : total + selectedValue entries ≤ INT64_MAX) (hshort : total < amount) :
    ∃ found selected, CWallet.takeCoins amount total entries = .ok (found, selected) ∧ selected <+: entries ∧
      (found = true ↔ amount ≤ total + selectedValue entries) ∧
      (found = true → amount ≤ total + selectedValue selected ∧ total + selectedValue selected.dropLast < amount) := by
  induction entries generalizing total with
  | nil =>
    refine ⟨false, [], rfl, List.prefix_rfl, ?_, fun hfound => nomatch hfound⟩
    simp [hshort]
  | cons e rest ih =>
    rw [List.forall_mem_cons] at hvalues
    rw [selectedValue_cons] at hbound ⊢
    have hrest : 0 ≤ selectedValue rest := by
      apply List.sum_nonneg
      intro value hvalue
      obtain ⟨s, hs, rfl⟩ := List.mem_map.mp hvalue
      exact hvalues.2 s hs
    rw [CWallet.takeCoins, signed64_of_bounds (by omega) (by omega), bind_ok]
    split
    next henough =>
      refine ⟨true, [e], rfl, List.cons_prefix_cons.mpr ⟨rfl, List.nil_prefix⟩, ?_, fun _ => ?_⟩
      · exact iff_of_true rfl (by omega)
      · simp [henough, hshort]
    next hmore =>
      obtain ⟨found, selected, hrun, hleading, hfound, hselected⟩ := ih hvalues.2 (by omega) (by omega) (Int.not_le.mp hmore)
      refine ⟨found, e :: selected, by rw [hrun]; rfl, List.cons_prefix_cons.mpr ⟨rfl, hleading⟩, ?_, fun htrue => ?_⟩
      · rw [hfound, Int.add_assoc]
      · obtain ⟨hle, hlt⟩ := hselected htrue
        have hne : selected ≠ [] := by
          rintro rfl
          simp only [selectedValue_nil] at hle
          omega
        rw [List.dropLast_cons_of_ne_nil hne, selectedValue_cons, selectedValue_cons]
        omega

section Selection

variable [Crypto]

theorem ownCoins_eq (w : CWallet) (view : CCoinsView) (height : Int) :
    w.ownCoins view height = w.keystore.getAddresses.flatMap fun address => (w.ownHash address).elim [] fun h =>
      (payingTo h (·.isSpendable height) view.utxo.toList).map fun kv => ⟨kv.1, kv.2, address⟩ := by
  unfold CWallet.ownCoins CWallet.ownHash
  congr
  funext address
  cases decodeAddress address.bytes with
  | none => rfl
  | some vh =>
    simp only [Option.bind_some]
    by_cases hversion : vh.1 = w.versionByte
    · rw [if_neg (not_not.mpr hversion), if_pos hversion, Option.elim_some, payingTo, ← List.filterMap_eq_map', List.filterMap_filter]
      simp only [Bool.and_eq_true, decide_eq_true_eq]
    · rw [if_pos hversion, if_neg hversion, Option.elim_none]

/-- `SelectCoins` looks at the coins that the balance counts. -/
theorem map_ownCoins (w : CWallet) (view : CCoinsView) (height : Int) :
    (w.ownCoins view height).map (fun s => (s.outpoint, s.coin)) =
      w.coinsAt view (·.isSpendable height) w.keystore.getAddresses := by
  rw [ownCoins_eq, CWallet.coinsAt, List.map_flatMap]
  congr
  funext address
  cases w.ownHash address with
  | none => rfl
  | some h =>
    simp only [Option.elim_some, List.map_map]
    exact List.map_id _

theorem mem_ownCoins {w : CWallet} {view : CCoinsView} {height : Int} {s : SelectedInput} (hs : s ∈ w.ownCoins view height) :
    s.address ∈ w.keystore.getAddresses ∧ view.getCoin s.outpoint = some s.coin ∧ s.coin.isSpendable height = true ∧
      ∃ h, w.ownHash s.address = some h ∧ extractP2PKHHash s.coin.scriptPubKey.val = some h.val := by
  rw [ownCoins_eq] at hs
  obtain ⟨address, haddress, hs⟩ := List.mem_flatMap.mp hs
  cases hown : w.ownHash address with
  | none => simp [hown] at hs
  | some h =>
    rw [hown, Option.elim_some] at hs
    obtain ⟨kv, hkv, rfl⟩ := List.mem_map.mp hs
    simp only [payingTo, List.mem_filter, Bool.and_eq_true, decide_eq_true_eq] at hkv
    exact ⟨haddress, ExtTreeMap.mem_toList_iff_getElem?_eq_some.mp hkv.1, hkv.2.2, h, hown, hkv.2.1⟩

theorem selectedValue_ownCoins (w : CWallet) (view : CCoinsView) (height : Int) :
    selectedValue (w.ownCoins view height) = coinsValue (w.coinsAt view (·.isSpendable height) w.keystore.getAddresses) := by
  rw [← map_ownCoins, coinsValue, List.map_map]
  rfl

section Found

variable {w : CWallet} {view : CCoinsView} {height : Int}
  (hmade : ∀ address ∈ w.keystore.getAddresses, ∃ h v, address = hash160ToAddress h v)
include hmade

theorem nodup_walletCoins (p : CUTXO → Bool) : (w.coinsAt view p w.keystore.getAddresses).Nodup := by
  apply nodup_coinsAt hmade
  rw [CKeystore.getAddresses, ExtTreeMap.map_fst_toList_eq_keys]
  exact ExtTreeMap.nodup_keys

theorem nodup_outpoint_ownCoins : ((w.ownCoins view height).map SelectedInput.outpoint).Nodup := by
  have hnodup : (w.coinsAt view (·.isSpendable height) w.keystore.getAddresses).Nodup := nodup_walletCoins hmade _
  rw [← map_ownCoins] at hnodup
  have hfst : (w.ownCoins view height).map SelectedInput.outpoint =
      ((w.ownCoins view height).map fun s => (s.outpoint, s.coin)).map Prod.fst := by
    rw [List.map_map]
    rfl
  rw [hfst]
  refine hnodup.map_on ?_
  intro kv hkv kv' hkv' hsame
  obtain ⟨s, hs, rfl⟩ := List.mem_map.mp hkv
  obtain ⟨s', hs', rfl⟩ := List.mem_map.mp hkv'
  obtain ⟨-, hcoin, -⟩ := mem_ownCoins hs
  obtain ⟨-, hcoin', -⟩ := mem_ownCoins hs'
  have hpoint : s.outpoint = s'.outpoint := hsame
  rw [hpoint, hcoin'] at hcoin
  exact Prod.ext hpoint (Option.some.inj hcoin).symm

theorem getBalance_eq (hsettled : view.Settled height) : ∃ bal, w.getBalance view height = .ok bal ∧
    bal.spendable = coinsValue (w.coinsAt view (·.isSpendable height) w.keystore.getAddresses) := by
  have hbound (p : CUTXO → Bool) : coinsValue (w.coinsAt view p w.keystore.getAddresses) ≤ INT64_MAX :=
    hsettled.coinsValue_le (nodup_walletCoins hmade p) (coinsAt_subset _ _ _ _)
  rw [CWallet.getBalance, add_fold hsettled le_rfl le_rfl rfl (by simpa using hbound _) (by simpa using hbound _), bind_ok]
  exact ⟨_, rfl, Int.zero_add _⟩

end Found

variable [Sorting]

/-- What a payment needs of the coins selected for it. -/
structure CWallet.Selects (w : CWallet) (view : CCoinsView) (height amount : Int) (selected : List SelectedInput) : Prop where
  distinct : (selected.map SelectedInput.outpoint).Nodup
  unspent : ∀ s ∈ selected, view.getCoin s.outpoint = some s.coin
  owned : ∀ s ∈ selected, s.address ∈ w.keystore.getAddresses ∧
    ∃ h, w.ownHash s.address = some h ∧ extractP2PKHHash s.coin.scriptPubKey.val = some h.val
  spendable : ∀ s ∈ selected, s.coin.isSpendable height = true
  enough : amount ≤ selectedValue selected
  tight : selectedValue selected.dropLast < amount

/-- The coins that the wallet finds for an amount are there exactly when its balance covers the amount. -/
theorem selectCoins_getBalance {w : CWallet} {view : CCoinsView} {height amount : Int}
    (hmade : ∀ address ∈ w.keystore.getAddresses, ∃ h v, address = hash160ToAddress h v) (hsettled : view.Settled height)
    (hamount : 0 < amount) :
    ∃ bal found selected, w.getBalance view height = .ok bal ∧ w.selectCoins view height amount = .ok (found, selected) ∧
      (found = true ↔ amount ≤ bal.spendable) ∧ (found = true → w.Selects view height amount selected) := by
  obtain ⟨bal, hbal, hspendable⟩ := getBalance_eq hmade hsettled
  have hperm := Sorting.sort_perm (w.ownCoins view height)
  have hvalue : selectedValue (Sorting.sort (w.ownCoins view height)) = bal.spendable := by
    rw [hspendable, ← selectedValue_ownCoins]
    exact (hperm.map _).sum_eq
  have hbound : bal.spendable ≤ INT64_MAX := by
    rw [hspendable]
    exact hsettled.coinsValue_le (nodup_walletCoins hmade _) (coinsAt_subset _ _ _ _)
  have hvalues : ∀ e ∈ Sorting.sort (w.ownCoins view height), 0 ≤ e.coin.value.toInt := by
    intro e he
    obtain ⟨-, hcoin, -⟩ := mem_ownCoins (hperm.mem_iff.mp he)
    exact hsettled.value_nonneg _ _ hcoin
  obtain ⟨found, selected, hrun, hleading, hfound, hselected⟩ :=
    takeCoins_spec hvalues le_rfl (by rwa [Int.zero_add, hvalue]) hamount
  rw [Int.zero_add, hvalue] at hfound
  refine ⟨bal, found, selected, hbal, hrun, hfound, fun htrue => ?_⟩
  obtain ⟨henough, htight⟩ := hselected htrue
  rw [Int.zero_add] at henough htight
  have hown : ∀ s ∈ selected, s ∈ w.ownCoins view height := fun s hs => hperm.mem_iff.mp (hleading.subset hs)
  have hdistinct : (selected.map SelectedInput.outpoint).Nodup :=
    ((hperm.map _).nodup_iff.mpr (nodup_outpoint_ownCoins hmade)).sublist (hleading.sublist.map _)
  refine ⟨hdistinct, ?_, ?_, ?_, henough, htight⟩
  · exact fun s hs => (mem_ownCoins (hown s hs)).2.1
  · exact fun s hs => ⟨(mem_ownCoins (hown s hs)).1, (mem_ownCoins (hown s hs)).2.2.2⟩
  · exact fun s hs => (mem_ownCoins (hown s hs)).2.2.1

end Selection

section

attribute [local instance] suffixCrypto mergeSorting

def sampleHash : Hash160 := ⟨List.replicate 20 7, List.length_replicate⟩

def otherHash : Hash160 := ⟨List.replicate 20 8, List.length_replicate⟩

def sampleEntry (hash160 : Hash160) : EncryptedKeyEntry where
  address := hash160ToAddress hash160 0x1E
  ciphertext := ⟨[], length_emptySalt⟩
  iv := ⟨[], length_emptySalt⟩
  tag := ⟨[], length_emptySalt⟩
  created := 0

/-- A wallet with two addresses. -/
def sampleWallet : CWallet where
  keystore := { keys := ((∅ : ExtTreeMap Address EncryptedKeyEntry).insert (hash160ToAddress sampleHash 0x1E)
    (sampleEntry sampleHash)).insert (hash160ToAddress otherHash 0x1E) (sampleEntry otherHash) }

/-- Coins of 5 and 3 units at the first address, of 2 units at the second, and one that is not mature. -/
def sampleCoins : List (COutPoint × CUTXO) := [
  (⟨0, 0⟩, { value := 5, scriptPubKey := buildP2PKHScript sampleHash, height := 1, isCoinbase := false }),
  (⟨0, 1⟩, { value := 3, scriptPubKey := buildP2PKHScript sampleHash, height := 1, isCoinbase := false }),
  (⟨0, 2⟩, { value := 2, scriptPubKey := buildP2PKHScript otherHash, height := 1, isCoinbase := false }),
  (⟨0, 3⟩, { value := 7, scriptPubKey := buildP2PKHScript otherHash, height := 1, isCoinbase := true })]

def sampleView : CCoinsView := sampleCoins.foldl (fun view kv => view.addCoin kv.1 kv.2) CCoinsView.empty

theorem settled_sampleView : sampleView.Settled 1 := by
  have hcoins : ∀ out coin, sampleView.getCoin out = some coin → coin ∈ sampleCoins.map Prod.snd := by
    intro out coin hcoin
    simp only [sampleView, sampleCoins, List.foldl_cons, List.foldl_nil, CCoinsView.getCoin_addCoin,
      CCoinsView.getCoin_empty] at hcoin
    split_ifs at hcoin <;> cases hcoin <;> simp [sampleCoins]
  have hvalues : ∀ coin ∈ sampleCoins.map Prod.snd, 0 ≤ coin.value.toInt ∧ coin.height ≤ 1 := by decide
  refine ⟨fun out coin hcoin => (hvalues coin (hcoins out coin hcoin)).1,
    fun out coin hcoin => (hvalues coin (hcoins out coin hcoin)).2, ?_⟩
  decide +kernel

/-- The wallet has ten units to spend, and finds six of them. -/
theorem selectCoins_getBalance_sample :
    (∀ address ∈ sampleWallet.keystore.getAddresses, ∃ h v, address = hash160ToAddress h v) ∧ sampleView.Settled 1 ∧
      ∃ bal selected, sampleWallet.getBalance sampleView 1 = .ok bal ∧ bal.spendable = 10 ∧
        sampleWallet.selectCoins sampleView 1 6 = .ok (true, selected) ∧ sampleWallet.Selects sampleView 1 6 selected := by
  have hmade : ∀ address ∈ sampleWallet.keystore.getAddresses, ∃ h v, address = hash160ToAddress h v := by
    intro address haddress
    rw [CKeystore.mem_getAddresses] at haddress
    rcases (orderedMap.mem_insert _ _ _ _).mp haddress with rfl | hfirst
    · exact ⟨otherHash, 0x1E, rfl⟩
    · rcases (orderedMap.mem_insert _ _ _ _).mp hfirst with rfl | hnone
      · exact ⟨sampleHash, 0x1E, rfl⟩
      · exact absurd hnone ExtTreeMap.not_mem_empty
  have hevaluated : (sampleWallet.getBalance sampleView 1).toOption.map Balance.spendable = some 10 := by decide +kernel
  obtain ⟨bal, found, selected, hbal, hselect, hfound, hselects⟩ :=
    selectCoins_getBalance hmade settled_sampleView (by decide : (0 : Int) < 6)
  rw [hbal] at hevaluated
  have hspendable : bal.spendable = 10 := Option.some.inj hevaluated
  obtain rfl : found = true := hfound.mpr (by rw [hspendable]; decide)
  exact ⟨hmade, settled_sampleView, bal, selected, hbal, hspendable, hselect, hselects rfl⟩

end

end cdx
