import Cdx.Consensus.Supply
import Cdx.Storage.Lookup

namespace cdx

open codec stream

theorem length_writeI64 (v : Int) : (writeI64 v).length = 8 := length_leEncode 8 _

/-- A signed integer in range survives its eight bytes. -/
theorem readI64_writeI64 {v : Int} (hlow : INT64_MIN ≤ v) (hhigh : v ≤ INT64_MAX) : readI64 (writeI64 v) = v := by
  have hword : (Int64.ofInt v).toUInt64.toNat < 256 ^ 8 := (Int64.ofInt v).toUInt64.toNat_lt
  rw [readI64, writeI64, writeU64, leDecode_leEncode_of_lt hword, UInt64.ofNat_toNat, Int64.toInt64_toUInt64,
    toInt_ofInt_of_bounds hlow hhigh]

/-- The numbers of an index entry fit the fields of `index.dat`. -/
structure BlockPos.Fits (pos : BlockPos) : Prop where
  height_low : 0 ≤ pos.height
  height_high : pos.height ≤ INT64_MAX
  fileNum : pos.fileNum < 2 ^ 31
  offset : pos.offset < 2 ^ 63
  size : pos.size < 2 ^ 63

/-- The numbers of an index entry survive the fields of `index.dat`, whatever the sign of its height. -/
structure BlockPos.Storable (pos : BlockPos) : Prop where
  height_low : INT64_MIN ≤ pos.height
  height_high : pos.height ≤ INT64_MAX
  fileNum : pos.fileNum < 2 ^ 32
  offset : pos.offset < 2 ^ 64
  size : pos.size < 2 ^ 64

theorem BlockPos.Fits.storable {pos : BlockPos} (hfits : pos.Fits) : pos.Storable := by
  obtain ⟨hlow, hhigh, hfileNum, hoffset, hsize⟩ := hfits
  refine ⟨?_, hhigh, by omega, by omega, by omega⟩
  rw [INT64_MIN_eq]
  omega

namespace CBlockStorage

variable [Memory]

/-- One entry of `index.dat` is read back as it was written. -/
theorem loadEntries_cons {entry : UInt256 × BlockPos} (hfits : entry.2.Storable) (n : Nat) (after : Bytes)
    (index : Std.ExtTreeMap UInt256 BlockPos) :
    loadEntries (n + 1) ⟨encodeEntry entry ++ after, true⟩ index =
      loadEntries n ⟨after, true⟩ (index.insert entry.1 entry.2) := by
  obtain ⟨hash, height, fileNum, offset, size⟩ := entry
  obtain ⟨hlow, hheightHigh, hfileNum, hoffset, hsize⟩ := hfits
  simp only at hlow hheightHigh hfileNum hoffset hsize
  rw [loadEntries, encodeEntry]
  simp only [List.append_assoc]
  rw [read_append_exact hash.length_getBytesLE (Memory.length_uninit 32)]
  simp only
  rw [read_append_exact (length_writeI64 height) (Memory.length_uninit 8)]
  simp only
  rw [read_append (length_leEncode 4 fileNum)]
  simp only
  rw [read_append_exact (length_leEncode 8 offset)
    (by rw [List.length_append, length_leEncode, List.length_drop, length_writeI64])]
  simp only
  rw [read_append_exact (length_leEncode 8 size) (length_leEncode 8 offset)]
  simp only [if_true, UInt256.setBytesLE_getBytesLE, readI64_writeI64 hlow hheightHigh,
    List.take_left' (length_leEncode 4 fileNum)]
  rw [leDecode_leEncode_of_lt (show fileNum < 256 ^ 4 by omega), leDecode_leEncode_of_lt (show offset < 256 ^ 8 by omega),
    leDecode_leEncode_of_lt (show size < 256 ^ 8 by omega)]

theorem loadEntries_flatMap {entries : List (UInt256 × BlockPos)} (hfits : ∀ entry ∈ entries, entry.2.Storable)
    (index : Std.ExtTreeMap UInt256 BlockPos) :
    loadEntries entries.length ⟨entries.flatMap encodeEntry, true⟩ index = orderedMap.insertAll entries index := by
  induction entries generalizing index with
  | nil => rfl
  | cons entry rest ih =>
    rw [List.forall_mem_cons] at hfits
    rw [List.length_cons, List.flatMap_cons, loadEntries_cons hfits.1, ih hfits.2]
    rfl

omit [Memory] in
theorem length_encodeIndex (index : Std.ExtTreeMap UInt256 BlockPos) : (encodeIndex index).length = 8 + 60 * index.size := by
  have hentries : ∀ entries : List (UInt256 × BlockPos), (entries.flatMap encodeEntry).length = 60 * entries.length := by
    intro entries
    induction entries with
    | nil => rfl
    | cons entry rest ih =>
      rw [List.flatMap_cons, List.length_append, ih, encodeEntry, List.length_cons]
      simp only [List.length_append, UInt256.length_getBytesLE, length_writeI64, length_leEncode]
      omega
  rw [encodeIndex, List.length_append, length_leEncode, hentries, Std.ExtTreeMap.length_toList]

theorem loadIndex_of_missing {s : CBlockStorage} (hloaded : s.loaded = false) (hdisk : s.disk.indexDat = none) :
    s.loadIndex = { s with loaded := true } := by
  unfold loadIndex
  rw [if_neg (by rw [hloaded]; exact Bool.false_ne_true), hdisk]

/-- What `LoadIndex` does with a file that `SaveIndex` wrote. -/
theorem loadIndex_of_file {s : CBlockStorage} {saved : Std.ExtTreeMap UInt256 BlockPos} (hloaded : s.loaded = false)
    (hdisk : s.disk.indexDat = some (encodeIndex saved)) (hlen : saved.size < 256 ^ 8) :
    s.loadIndex =
      if saved.size > 100000000 then { s with loaded := true }
      else { s with
        loaded := true, index := loadEntries saved.size ⟨saved.toList.flatMap encodeEntry, true⟩ s.index } := by
  unfold loadIndex
  rw [if_neg (by rw [hloaded]; exact Bool.false_ne_true), hdisk]
  simp only [encodeIndex, read_append_exact (length_leEncode 8 saved.size) (Memory.length_uninit 8),
    leDecode_leEncode_of_lt hlen]

/-- A saved index that holds all the entries in memory is loaded back whole. -/
theorem loadIndex_of_saved {s : CBlockStorage} {saved : Std.ExtTreeMap UInt256 BlockPos} (hloaded : s.loaded = false)
    (hdisk : s.disk.indexDat = some (encodeIndex saved)) (hsize : saved.size ≤ 100000000)
    (hfits : ∀ (hash : UInt256) (pos : BlockPos), saved[hash]? = some pos → pos.Storable)
    (hsub : orderedMap.Sub s.index saved) : s.loadIndex = { s with loaded := true, index := saved } := by
  have hentries : ∀ entry ∈ saved.toList, entry.2.Storable := by
    intro entry hentry
    exact hfits entry.1 entry.2 (Std.ExtTreeMap.mem_toList_iff_getElem?_eq_some.mp hentry)
  have hload : loadEntries saved.size ⟨saved.toList.flatMap encodeEntry, true⟩ s.index = saved := by
    rw [← Std.ExtTreeMap.length_toList, loadEntries_flatMap hentries, orderedMap.insertAll_toList hsub]
  rw [loadIndex_of_file hloaded hdisk (by omega), if_neg (by omega), hload]

end CBlockStorage

section ChainState

/-- The numbers of a coin fit the fields of `chainstate.dat`. -/
structure CUTXO.Fits (coin : CUTXO) : Prop where
  height_low : INT64_MIN ≤ coin.height
  height_high : coin.height ≤ INT64_MAX
  script : coin.scriptPubKey.val.length ≤ 100000

theorem loadHashes_flatMap (hashes : List UInt256) {tip : Bytes} (htip : tip.length = 32) (after : Bytes) :
    loadHashes hashes.length tip ⟨hashes.flatMap UInt256.getBytesLE ++ after, true⟩ = (hashes, ⟨after, true⟩) := by
  induction hashes generalizing tip with
  | nil => rfl
  | cons hash rest ih =>
    rw [List.length_cons, List.flatMap_cons, List.append_assoc, loadHashes,
      read_append_exact hash.length_getBytesLE htip]
    simp only [ih hash.length_getBytesLE, UInt256.setBytesLE_getBytesLE]

theorem loadScript_append (script : Script) {scriptLen : Nat} (hscript : scriptLen = script.val.length)
    (hlen : scriptLen ≤ 100000) (after : Bytes) :
    loadScript scriptLen hlen ⟨script.val ++ after, true⟩ = (script, ⟨after, true⟩) := by
  subst hscript
  have hread := read_append_exact (show script.val.length = script.val.length from rfl)
    (show (List.replicate script.val.length (0 : UInt8)).length = script.val.length from List.length_replicate) after
  unfold loadScript
  simp only [hread]

variable [Memory]

/-- One coin of `chainstate.dat`: its script decides whether the loop goes on. -/
theorem loadCoins_entry (entry : COutPoint × CUTXO) (n : Nat) {buf : Bytes} (hbuf : buf.length = 8) (after : Bytes)
    (view : CCoinsView) :
    loadCoins (n + 1) buf ⟨encodeCoin entry ++ after, true⟩ view =
      if entry.2.scriptPubKey.val.length ≤ 100000 then
        loadCoins n (leEncode 8 entry.2.scriptPubKey.val.length) ⟨after, true⟩
          (view.addCoin entry.1 { entry.2 with height := readI64 (writeI64 entry.2.height) })
      else (false, view) := by
  obtain ⟨⟨hash, index⟩, value, script, height, isCoinbase⟩ := entry
  have hindex : (writeU32 index).length = 4 := length_leEncode 4 _
  have hvalue : (writeU64 value.toUInt64).length = 8 := length_leEncode 8 _
  have hlen : leDecode (leEncode 8 script.val.length) = script.val.length := leDecode_leEncode_of_lt script.property
  have hrest : (writeU32 index ++ buf.drop 4).length = 8 := by rw [List.length_append, hindex, List.length_drop, hbuf]
  have hword : value.toUInt64.toNat < 256 ^ 8 := value.toUInt64.toNat_lt
  have hnum : index.toNat < 256 ^ 4 := index.toNat_lt
  have hflagLen : [if isCoinbase then (1 : UInt8) else 0].length = 1 := rfl
  have hflag : decide ([if isCoinbase then (1 : UInt8) else 0] ≠ [0]) = isCoinbase := by cases isCoinbase <;> decide
  rw [loadCoins, encodeCoin]
  -- The reads follow the fields; the buffer of eight bytes is used for all but the hash and the flag.
  simp only [List.append_assoc, read_append_exact hash.length_getBytesLE (Memory.length_uninit 32), read_append hindex,
    read_append_exact hvalue hrest, read_append_exact (length_writeI64 height) hvalue,
    read_append_exact hflagLen (Memory.length_uninit 1),
    read_append_exact (length_leEncode 8 script.val.length) (length_writeI64 height)]
  by_cases hscript : script.val.length ≤ 100000
  · rw [if_pos hscript, dif_pos (by rw [hlen]; exact hscript), loadScript_append script hlen]
    simp only [UInt256.setBytesLE_getBytesLE, List.take_left' hindex, hflag]
    rw [writeU32, writeU64, leDecode_leEncode_of_lt hword, leDecode_leEncode_of_lt hnum, UInt64.ofNat_toNat,
      UInt32.ofNat_toNat, Int64.toInt64_toUInt64]
  · rw [if_neg hscript, dif_neg (by rw [hlen]; exact hscript)]

/-- A coin that fits the file is read back as it was written. -/
theorem loadCoins_cons {entry : COutPoint × CUTXO} (hfits : entry.2.Fits) (n : Nat) {buf : Bytes}
    (hbuf : buf.length = 8) (after : Bytes) (view : CCoinsView) :
    loadCoins (n + 1) buf ⟨encodeCoin entry ++ after, true⟩ view =
      loadCoins n (leEncode 8 entry.2.scriptPubKey.val.length) ⟨after, true⟩ (view.addCoin entry.1 entry.2) := by
  rw [loadCoins_entry entry n hbuf, if_pos hfits.script, readI64_writeI64 hfits.height_low hfits.height_high]

theorem loadCoins_flatMap {entries : List (COutPoint × CUTXO)} (hfits : ∀ entry ∈ entries, entry.2.Fits) {buf : Bytes}
    (hbuf : buf.length = 8) (view : CCoinsView) :
    loadCoins entries.length buf ⟨entries.flatMap encodeCoin, true⟩ view =
      (true, { utxo := orderedMap.insertAll entries view.utxo }) := by
  induction entries generalizing buf view with
  | nil => rfl
  | cons entry rest ih =>
    rw [List.forall_mem_cons] at hfits
    rw [List.length_cons, List.flatMap_cons, loadCoins_cons hfits.1 _ hbuf, ih hfits.2 (length_leEncode 8 _)]
    rfl

/-- The loop ends well only if it meets no script above the limit. -/
theorem script_le_of_loadCoins {entries : List (COutPoint × CUTXO)} {buf : Bytes} (hbuf : buf.length = 8)
    {view : CCoinsView} (hok : (loadCoins entries.length buf ⟨entries.flatMap encodeCoin, true⟩ view).1 = true) :
    ∀ entry ∈ entries, entry.2.scriptPubKey.val.length ≤ 100000 := by
  induction entries generalizing buf view with
  | nil =>
    intro entry hentry
    cases hentry
  | cons entry rest ih =>
    rw [List.length_cons, List.flatMap_cons, loadCoins_entry entry _ hbuf] at hok
    split at hok
    next hscript => exact List.forall_mem_cons.mpr ⟨hscript, ih (length_leEncode 8 _) hok⟩
    · cases hok

/-- Up to its coins, the file of a chain state within the limits on the counts is loaded
    back whole. -/
theorem CBlockStorage.loadChainState_eq {s : CBlockStorage} {view : CCoinsView} {height : Int} {tipHash : UInt256}
    {byHeight : List UInt256} (hdisk : s.disk.chainstateDat = some (encodeChainState view height tipHash byHeight))
    (hlow : INT64_MIN ≤ height) (hhigh : height ≤ INT64_MAX) (hlength : byHeight.length ≤ 100000000)
    (hsize : view.utxo.size ≤ 1000000000) (view₀ : CCoinsView) (height₀ : Int) (tipHash₀ : UInt256)
    (byHeight₀ : List UInt256) :
    s.loadChainState view₀ height₀ tipHash₀ byHeight₀ =
      ⟨(loadCoins view.utxo.size (leEncode 8 view.utxo.size) ⟨view.utxo.toList.flatMap encodeCoin, true⟩ .empty).1,
        (loadCoins view.utxo.size (leEncode 8 view.utxo.size) ⟨view.utxo.toList.flatMap encodeCoin, true⟩ .empty).2,
        height, tipHash, byHeight⟩ := by
  have hmagic : chainStateMagic.length = 4 := by decide
  have hlengthLt : byHeight.length < 256 ^ 8 := by omega
  have hsizeLt : view.utxo.size < 256 ^ 8 := by omega
  unfold loadChainState
  rw [hdisk]
  simp only [encodeChainState, read_append_exact hmagic (Memory.length_uninit 4),
    read_append_exact (length_writeI64 height) (Memory.length_uninit 8),
    read_append_exact tipHash.length_getBytesLE (Memory.length_uninit 32),
    read_append_exact (length_leEncode 8 byHeight.length) (length_writeI64 height), leDecode_leEncode_of_lt hlengthLt,
    loadHashes_flatMap byHeight tipHash.length_getBytesLE,
    read_append_exact (length_leEncode 8 view.utxo.size) (length_leEncode 8 byHeight.length),
    leDecode_leEncode_of_lt hsizeLt, UInt256.setBytesLE_getBytesLE, readI64_writeI64 hlow hhigh]
  rw [if_neg (not_not.mpr rfl), if_neg (not_lt.mpr hlength), if_neg (not_lt.mpr hsize)]

/-- The file of a chain state within the limits of `LoadChainState` is loaded back whole. -/
theorem CBlockStorage.loadChainState_of_saved {s : CBlockStorage} {view : CCoinsView} {height : Int} {tipHash : UInt256}
    {byHeight : List UInt256} (hdisk : s.disk.chainstateDat = some (encodeChainState view height tipHash byHeight))
    (hlow : INT64_MIN ≤ height) (hhigh : height ≤ INT64_MAX) (hlength : byHeight.length ≤ 100000000)
    (hsize : view.utxo.size ≤ 1000000000) (hfits : ∀ out coin, view.getCoin out = some coin → coin.Fits)
    (view₀ : CCoinsView) (height₀ : Int) (tipHash₀ : UInt256) (byHeight₀ : List UInt256) :
    s.loadChainState view₀ height₀ tipHash₀ byHeight₀ = ⟨true, view, height, tipHash, byHeight⟩ := by
  have hentries : ∀ entry ∈ view.utxo.toList, entry.2.Fits := by
    intro entry hentry
    exact hfits entry.1 entry.2 (Std.ExtTreeMap.mem_toList_iff_getElem?_eq_some.mp hentry)
  have hcoins : loadCoins view.utxo.size (leEncode 8 view.utxo.size) ⟨view.utxo.toList.flatMap encodeCoin, true⟩ .empty =
      (true, view) := by
    have hload := loadCoins_flatMap hentries (length_leEncode 8 view.utxo.size) .empty
    rw [Std.ExtTreeMap.length_toList, orderedMap.insertAll_toList (by intro out coin hcoin; simp [CCoinsView.empty] at hcoin)]
      at hload
    exact hload
  rw [loadChainState_eq hdisk hlow hhigh hlength hsize, hcoins]

/-- Whatever else the file holds, its tip is the one that was saved. -/
theorem CBlockStorage.loadChainState_tipHash {s : CBlockStorage} {view : CCoinsView} {height : Int} {tipHash : UInt256}
    {byHeight : List UInt256} (hdisk : s.disk.chainstateDat = some (encodeChainState view height tipHash byHeight))
    (view₀ : CCoinsView) (height₀ : Int) (tipHash₀ : UInt256) (byHeight₀ : List UInt256) :
    (s.loadChainState view₀ height₀ tipHash₀ byHeight₀).tipHash = tipHash := by
  have hmagic : chainStateMagic.length = 4 := by decide
  unfold loadChainState
  rw [hdisk]
  simp only [encodeChainState, read_append_exact hmagic (Memory.length_uninit 4),
    read_append_exact (length_writeI64 height) (Memory.length_uninit 8),
    read_append_exact tipHash.length_getBytesLE (Memory.length_uninit 32), UInt256.setBytesLE_getBytesLE]
  rw [if_neg (not_not.mpr rfl)]
  split
  · rfl
  · split <;> rfl

/-- The bytes of a chain state determine its tip. -/
theorem tipHash_of_encodeChainState {view view' : CCoinsView} {height height' : Int} {tipHash tipHash' : UInt256}
    {byHeight byHeight' : List UInt256}
    (hsame : encodeChainState view height tipHash byHeight = encodeChainState view' height' tipHash' byHeight') :
    tipHash = tipHash' := by
  let s : CBlockStorage := { disk := { chainstateDat := some (encodeChainState view height tipHash byHeight) } }
  have hfirst : (s.loadChainState .empty 0 0 []).tipHash = tipHash := CBlockStorage.loadChainState_tipHash rfl _ _ _ _
  have hsecond : (s.loadChainState .empty 0 0 []).tipHash = tipHash' :=
    CBlockStorage.loadChainState_tipHash (congrArg some hsame) _ _ _ _
  exact hfirst.symm.trans hsecond

omit [Memory] in
theorem length_loadHashes (n : Nat) (tip : Bytes) (inp : InStream UInt8) : (loadHashes n tip inp).1.length = n := by
  induction n generalizing tip inp with
  | zero => rfl
  | succ n ih => rw [loadHashes, List.length_cons, ih]

theorem size_loadCoins_le (n : Nat) (buf : Bytes) (inp : InStream UInt8) (view : CCoinsView) :
    (loadCoins n buf inp view).2.utxo.size ≤ view.utxo.size + n := by
  induction n generalizing buf inp view with
  | zero => exact le_refl _
  | succ n ih =>
    rw [loadCoins]
    simp only
    split
    · refine (ih _ _ _).trans ?_
      rw [Nat.add_comm n 1, ← Nat.add_assoc]
      exact Nat.add_le_add_right Std.ExtTreeMap.size_insert_le n
    · exact Nat.le_add_right _ _

/-- What `LoadChainState` accepts is within its limits. -/
theorem CBlockStorage.loadChainState_bounds (s : CBlockStorage) (view₀ : CCoinsView) (height₀ : Int)
    (tipHash₀ : UInt256) (byHeight₀ : List UInt256)
    (hok : (s.loadChainState view₀ height₀ tipHash₀ byHeight₀).ok = true) :
    (s.loadChainState view₀ height₀ tipHash₀ byHeight₀).byHeight.length ≤ 100000000 ∧
      (s.loadChainState view₀ height₀ tipHash₀ byHeight₀).view.utxo.size ≤ 1000000000 := by
  unfold loadChainState at hok ⊢
  split at hok
  · cases hok
  next content hcontent =>
    simp only at hok ⊢
    split at hok
    · cases hok
    next hmagic =>
    rw [if_neg hmagic]
    split at hok
    · cases hok
    next hlength =>
    rw [if_neg hlength]
    split at hok
    · cases hok
    next hsize =>
      rw [if_neg hsize]
      refine ⟨?_, ?_⟩
      · simp only [length_loadHashes]
        omega
      · refine (size_loadCoins_le _ _ _ _).trans ?_
        rw [show CCoinsView.empty.utxo.size = 0 from rfl, Nat.zero_add]
        omega

end ChainState

end cdx
