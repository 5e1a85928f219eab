import Cdx.Storage.Blocks
import Cdx.Utxo.CoinsView

namespace cdx

open codec stream

/-- One coin of `chainstate.dat`. -/
def encodeCoin (entry : COutPoint × CUTXO) : Bytes :=
  entry.1.hash.getBytesLE ++ (writeU32 entry.1.n ++ (writeU64 entry.2.value.toUInt64 ++
    (writeI64 entry.2.height ++ ([if entry.2.isCoinbase then 1 else 0] ++
      (leEncode 8 entry.2.scriptPubKey.val.length ++ entry.2.scriptPubKey.val)))))

def chainStateMagic : Bytes := ascii "CDXS"

def encodeChainState (view : CCoinsView) (height : Int) (tipHash : UInt256) (byHeight : List UInt256) : Bytes :=
  chainStateMagic ++ (writeI64 height ++ (tipHash.getBytesLE ++ (leEncode 8 byHeight.length ++
    (byHeight.flatMap UInt256.getBytesLE ++ (leEncode 8 view.utxo.size ++ view.utxo.toList.flatMap encodeCoin)))))

def CBlockStorage.saveChainState (s : CBlockStorage) (view : CCoinsView) (height : Int) (tipHash : UInt256)
    (byHeight : List UInt256) : CBlockStorage :=
  { s with disk := { s.disk with chainstateDat := some (encodeChainState view height tipHash byHeight) } }

/-- The result of `LoadChainState` with its reference arguments after the call. -/
structure LoadedState where
  ok : Bool
  view : CCoinsView
  height : Int
  tipHash : UInt256
  byHeight : List UInt256

variable [Memory]

/-- The hash loop of `LoadChainState`; `tip` is the buffer it reads into. -/
def loadHashes : Nat → Bytes → InStream UInt8 → List UInt256 × InStream UInt8
  | 0, _, inp => ([], inp)
  | n + 1, tip, inp =>
    let (tip, inp) := read 32 tip inp
    let (hashes, inp) := loadHashes n tip inp
    (UInt256.setBytesLE tip :: hashes, inp)

/-- A script of `LoadChainState`: a vector of zeros that the file is read into. -/
def loadScript (scriptLen : Nat) (hlen : scriptLen ≤ 100000) (inp : InStream UInt8) : Script × InStream UInt8 :=
  let result := read scriptLen (List.replicate scriptLen 0) inp
  (⟨result.1, by
    have hread := length_read (show scriptLen ≤ (List.replicate scriptLen (0 : UInt8)).length by simp) inp
    rw [hread, List.length_replicate]
    omega⟩, result.2)

/-- The coin loop of `LoadChainState`. It never looks at the state of the stream;
    only a script length above the limit stops it. -/
def loadCoins : Nat → Bytes → InStream UInt8 → CCoinsView → Bool × CCoinsView
  | 0, _, _, view => (true, view)
  | n + 1, buf, inp, view =>
    let (hashBytes, inp) := read 32 (Memory.uninit 32) inp
    let (buf, inp) := read 4 buf inp
    let out : COutPoint := ⟨UInt256.setBytesLE hashBytes, UInt32.ofNat (leDecode (buf.take 4))⟩
    let (buf, inp) := read 8 buf inp
    let value := (UInt64.ofNat (leDecode buf)).toInt64
    let (buf, inp) := read 8 buf inp
    let utxoHeight := readI64 buf
    let (flags, inp) := read 1 (Memory.uninit 1) inp
    let (buf, inp) := read 8 buf inp
    let scriptLen := leDecode buf
    if hlen : scriptLen ≤ 100000 then
      let (scriptPubKey, inp) := loadScript scriptLen hlen inp
      loadCoins n buf inp (view.addCoin out
        { value := value, scriptPubKey := scriptPubKey, height := utxoHeight, isCoinbase := flags ≠ [0] })
    else (false, view)

/-- `LoadChainState`, from the values its reference arguments have before the call. -/
def CBlockStorage.loadChainState (s : CBlockStorage) (view : CCoinsView) (height : Int) (tipHash : UInt256)
    (byHeight : List UInt256) : LoadedState :=
  match s.disk.chainstateDat with
  | none => ⟨false, view, height, tipHash, byHeight⟩
  | some content =>
    let (magic, inp) := read 4 (Memory.uninit 4) ⟨content, true⟩
    if magic ≠ chainStateMagic then ⟨false, view, height, tipHash, byHeight⟩
    else
      let (buf, inp) := read 8 (Memory.uninit 8) inp
      let height := readI64 buf
      let (tip, inp) := read 32 (Memory.uninit 32) inp
      let tipHash := UInt256.setBytesLE tip
      let (buf, inp) := read 8 buf inp
      let nHeight := leDecode buf
      if nHeight > 100000000 then ⟨false, view, height, tipHash, byHeight⟩
      else
        let (byHeight, inp) := loadHashes nHeight tip inp
        let (buf, inp) := read 8 buf inp
        let nUtxo := leDecode buf
        if nUtxo > 1000000000 then ⟨false, view, height, tipHash, byHeight⟩
        else
          let (ok, view) := loadCoins nUtxo buf inp CCoinsView.empty
          ⟨ok, view, height, tipHash, byHeight⟩

end cdx
