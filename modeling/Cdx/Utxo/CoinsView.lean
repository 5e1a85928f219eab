import Cdx.Config.Networks
import Cdx.Lib.OrderedMap
import Cdx.Transaction.Types

namespace cdx

/-- An unspent output with the height and kind of the transaction that made it. -/
structure CUTXO where
  value : Int64
  scriptPubKey : Script
  height : Int
  isCoinbase : Bool
deriving DecidableEq

/-- A coinbase output may be spent once it is `COINBASE_MATURITY` blocks deep. -/
def CUTXO.isSpendable (coin : CUTXO) (currentHeight : Int) : Bool :=
  !(coin.isCoinbase && decide (currentHeight - coin.height < COINBASE_MATURITY))

/-- The set of unspent outputs, ordered by outpoint like the `std::map` it models. -/
@[ext]
structure CCoinsView where
  utxo : Std.ExtTreeMap COutPoint CUTXO := ∅

namespace CCoinsView

instance : DecidableEq CCoinsView := fun a b => decidable_of_iff (a.utxo = b.utxo) (by
  constructor
  · exact CCoinsView.ext
  · intro h
    rw [h])

def empty : CCoinsView := {}

def getCoin (view : CCoinsView) (out : COutPoint) : Option CUTXO := view.utxo[out]?

def addCoin (view : CCoinsView) (out : COutPoint) (coin : CUTXO) : CCoinsView :=
  { utxo := view.utxo.insert out coin }

/-- The erased view and whether there was a coin to erase. -/
def spendCoin (view : CCoinsView) (out : COutPoint) : Bool × CCoinsView :=
  (view.utxo.contains out, { utxo := view.utxo.erase out })

def totalValue (view : CCoinsView) : Int :=
  view.utxo.foldl (fun total _ coin => total + coin.value.toInt) 0

@[simp] theorem getCoin_empty (out : COutPoint) : empty.getCoin out = none := by
  simp [empty, getCoin]

theorem getCoin_addCoin (view : CCoinsView) (out query : COutPoint) (coin : CUTXO) :
    (view.addCoin out coin).getCoin query = if query = out then some coin else view.getCoin query :=
  orderedMap.lookup_insert view.utxo out query coin

theorem getCoin_spendCoin (view : CCoinsView) (out query : COutPoint) :
    (view.spendCoin out).2.getCoin query = if query = out then none else view.getCoin query :=
  orderedMap.lookup_erase view.utxo out query

theorem spendCoin_fst (view : CCoinsView) (out : COutPoint) :
    (view.spendCoin out).1 = (view.getCoin out).isSome := by
  simp [getCoin, spendCoin]

theorem totalValue_spendCoin {view : CCoinsView} {out : COutPoint} {coin : CUTXO}
    (hcoin : view.getCoin out = some coin) :
    (view.spendCoin out).2.totalValue + coin.value.toInt = view.totalValue :=
  orderedMap.total_erase (fun coin => coin.value.toInt) hcoin

/-- Adding a coin replaces the value of a coin already at the outpoint. -/
theorem totalValue_addCoin (view : CCoinsView) (out : COutPoint) (coin : CUTXO) :
    (view.addCoin out coin).totalValue =
      view.totalValue - ((view.getCoin out).map fun coin => coin.value.toInt).getD 0 + coin.value.toInt :=
  orderedMap.total_insert (fun coin : CUTXO => coin.value.toInt) view.utxo out coin

/-- Every coin has a value between nothing and the whole supply. -/
def InRange (view : CCoinsView) : Prop :=
  ∀ out coin, view.getCoin out = some coin → 0 ≤ coin.value.toInt ∧ coin.value.toInt ≤ MAX_MONEY

theorem inRange_empty : empty.InRange := by
  intro out coin hcoin
  simp at hcoin

theorem InRange.totalValue_nonneg {view : CCoinsView} (hview : view.InRange) : 0 ≤ view.totalValue :=
  orderedMap.total_nonneg fun out coin hcoin => (hview out coin hcoin).1

theorem InRange.spendCoin {view : CCoinsView} (hview : view.InRange) (out : COutPoint) :
    (view.spendCoin out).2.InRange := by
  intro query coin hcoin
  rw [getCoin_spendCoin] at hcoin
  split at hcoin
  · cases hcoin
  · exact hview query coin hcoin

theorem InRange.addCoin {view : CCoinsView} (hview : view.InRange) (out : COutPoint) {coin : CUTXO}
    (hcoin : 0 ≤ coin.value.toInt ∧ coin.value.toInt ≤ MAX_MONEY) : (view.addCoin out coin).InRange := by
  intro query found hfound
  rw [getCoin_addCoin] at hfound
  split at hfound
  · cases hfound
    exact hcoin
  · exact hview query found hfound

/-- An overwritten coin had a value, so an addition adds at most the new one. -/
theorem InRange.totalValue_addCoin_le {view : CCoinsView} (hview : view.InRange) (out : COutPoint) (coin : CUTXO) :
    (view.addCoin out coin).totalValue ≤ view.totalValue + coin.value.toInt := by
  rw [totalValue_addCoin]
  cases hold : view.getCoin out with
  | none => simp
  | some old =>
    have hvalue := (hview out old hold).1
    simp only [Option.map_some, Option.getD_some]
    omega

end CCoinsView

end cdx
