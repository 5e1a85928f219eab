import Cdx.Blockchain.Regtest
import Cdx.Consensus.CoinOrigin
import Cdx.Storage.Restore

namespace cdx

open codec

section Views

variable [Crypto]

/-- The views that blocks accepted by `CheckBlock`, each at some 64-bit height, lead to. -/
inductive Produced : CCoinsView → Prop where
  | empty : Produced .empty
  | block {view view' : CCoinsView} {blk : CBlock} {height fees : Int} (hview : Produced view)
      (hlow : INT64_MIN ≤ height) (hhigh : height ≤ INT64_MAX)
      (hcheck : checkBlock blk height view = .ok (view', fees)) : Produced view'

theorem Produced.height_bounds {view : CCoinsView} (hview : Produced view) :
    ∀ out coin, view.getCoin out = some coin → INT64_MIN ≤ coin.height ∧ coin.height ≤ INT64_MAX := by
  induction hview with
  | empty =>
    intro out coin hcoin
    simp at hcoin
  | block _ hlow hhigh hcheck ih =>
    intro out coin hcoin
    obtain hold | ⟨hheight, -⟩ := checkBlock_made hcheck hcoin
    · exact ih out coin hold
    · rw [hheight]
      exact ⟨hlow, hhigh⟩

/-- The view is within the limits that `LoadChainState` puts on coins. -/
def Loadable (view : CCoinsView) : Prop :=
  view.utxo.size ≤ 1000000000 ∧ ∀ out coin, view.getCoin out = some coin → coin.scriptPubKey.val.length ≤ 100000

variable [Memory]

omit [Crypto] in
theorem loadable_of_ok {view : CCoinsView} (hsize : view.utxo.size ≤ 1000000000) {height : Int}
    (hlow : INT64_MIN ≤ height) (hhigh : height ≤ INT64_MAX) {tipHash : UInt256} {byHeight : List UInt256}
    (hlength : byHeight.length ≤ 100000000) {s : CBlockStorage} {view₀ : CCoinsView} {height₀ : Int} {tipHash₀ : UInt256}
    {byHeight₀ : List UInt256}
    (hok : ((s.saveChainState view height tipHash byHeight).loadChainState view₀ height₀ tipHash₀ byHeight₀).ok = true) :
    Loadable view := by
  rw [CBlockStorage.loadChainState_eq rfl hlow hhigh hlength hsize] at hok
  rw [← Std.ExtTreeMap.length_toList] at hok
  refine ⟨hsize, ?_⟩
  intro out coin hcoin
  exact script_le_of_loadCoins (length_leEncode 8 _) hok (out, coin)
    (Std.ExtTreeMap.mem_toList_iff_getElem?_eq_some.mpr hcoin)

/-- A view that blocks can produce comes back from the file, with everything saved beside
    it, exactly when it is within the limits of the loader. -/
theorem loadChainState_saveChainState_iff {view : CCoinsView} (hview : Produced view) {height : Int}
    (hlow : INT64_MIN ≤ height) (hhigh : height ≤ INT64_MAX) (tipHash : UInt256) {byHeight : List UInt256}
    (hlength : byHeight.length ≤ 100000000) (s : CBlockStorage) (view₀ : CCoinsView) (height₀ : Int)
    (tipHash₀ : UInt256) (byHeight₀ : List UInt256) :
    (s.saveChainState view height tipHash byHeight).loadChainState view₀ height₀ tipHash₀ byHeight₀ =
      ⟨true, view, height, tipHash, byHeight⟩ ↔ Loadable view := by
  constructor
  · intro hloaded
    have hbounds := (s.saveChainState view height tipHash byHeight).loadChainState_bounds view₀ height₀ tipHash₀ byHeight₀
    rw [hloaded] at hbounds
    have hsize : view.utxo.size ≤ 1000000000 := (hbounds rfl).2
    apply loadable_of_ok hsize hlow hhigh hlength
    rw [hloaded]
  · intro ⟨hsize, hscripts⟩
    apply CBlockStorage.loadChainState_of_saved rfl hlow hhigh hlength hsize
    intro out coin hcoin
    obtain ⟨hcoinLow, hcoinHigh⟩ := hview.height_bounds out coin hcoin
    exact ⟨hcoinLow, hcoinHigh, hscripts out coin hcoin⟩

end Views

section

attribute [local instance] toolCrypto zeroMemory

/-- The view after a block whose coinbase pays to a script. -/
def viewPaying (script : Script) : CCoinsView :=
  CCoinsView.empty.addCoin ⟨getTxID (coinbasePaying 1 script), 0⟩
    (coinbaseCoin (coinbasePaying 1 script) 1 (getBlockSubsidy 1))

theorem produced_viewPaying (script : Script) : Produced (viewPaying script) :=
  Produced.block Produced.empty (by decide) (by decide) (checkBlock_coinbasePaying 0 1 script 0 0 0 .empty)

theorem size_viewPaying (script : Script) : (viewPaying script).utxo.size ≤ 1000000000 := by
  have hsize : (viewPaying script).utxo.size ≤ CCoinsView.empty.utxo.size + 1 := Std.ExtTreeMap.size_insert_le
  have hempty : CCoinsView.empty.utxo.size = 0 := rfl
  omega

theorem loadChainState_saveChainState_opTrue : Produced (viewPaying opTrue) ∧
    (({} : CBlockStorage).saveChainState (viewPaying opTrue) 1 0 [0, 0]).loadChainState .empty 0 0 [] =
      ⟨true, viewPaying opTrue, 1, 0, [0, 0]⟩ := by
  refine ⟨produced_viewPaying opTrue, ?_⟩
  apply (loadChainState_saveChainState_iff (produced_viewPaying opTrue) (by decide) (by decide) 0 (by decide) {} .empty 0
    0 []).mpr
  refine ⟨size_viewPaying opTrue, ?_⟩
  intro out coin hcoin
  rw [viewPaying, CCoinsView.getCoin_addCoin] at hcoin
  split at hcoin
  · cases hcoin
    decide
  · simp at hcoin

/-- A block may pay to a script of any length, and the loader refuses the file when it is too long. -/
theorem loadChainState_viewPaying_of_long {script : Script} (hlong : 100000 < script.val.length) :
    ((({} : CBlockStorage).saveChainState (viewPaying script) 1 0 [0, 0]).loadChainState .empty 0 0 []).ok = false := by
  rw [← Bool.not_eq_true]
  intro hok
  have hcoin : (viewPaying script).getCoin ⟨getTxID (coinbasePaying 1 script), 0⟩ =
      some (coinbaseCoin (coinbasePaying 1 script) 1 (getBlockSubsidy 1)) := by
    rw [viewPaying, CCoinsView.getCoin_addCoin, if_pos rfl]
  have hloadable := loadable_of_ok (size_viewPaying script) (by decide) (by decide) (by decide) hok
  exact absurd (hloadable.2 _ _ hcoin) (Nat.not_le.mpr hlong)

/-- A script of so many bytes. -/
def scriptOfLength (n : Nat) (hn : n < 2 ^ 64) : Script where
  val := List.replicate n 0x51
  property := by
    rw [List.length_replicate]
    exact hn

theorem length_scriptOfLength (n : Nat) (hn : n < 2 ^ 64) : (scriptOfLength n hn).val.length = n := List.length_replicate

/-- A script one byte above the limit. -/
def longScript : Script := scriptOfLength 100001 (by norm_num)

theorem loadChainState_fails_longScript : Produced (viewPaying longScript) ∧
    ((({} : CBlockStorage).saveChainState (viewPaying longScript) 1 0 [0, 0]).loadChainState .empty 0 0 []).ok =
      false := by
  have hlong : 100000 < longScript.val.length := by
    rw [longScript, length_scriptOfLength]
    norm_num
  exact ⟨produced_viewPaying longScript, loadChainState_viewPaying_of_long hlong⟩

end

end cdx
