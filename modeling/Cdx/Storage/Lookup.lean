import Cdx.Storage.ChainState

namespace cdx

open codec stream

namespace CBlockStorage

/-- A read that succeeds before an append succeeds after it with the same bytes. -/
theorem readFromFile_append {disk : Disk} {fileNum offset size : Nat} {data : Bytes}
    (hread : readFromFile disk fileNum offset size = some data) (target : Nat) (extra : Bytes) :
    readFromFile (disk.append target extra) fileNum offset size = some data := by
  unfold readFromFile at hread ⊢
  cases hfile : disk.blk fileNum with
  | none => simp [hfile] at hread
  | some content =>
    simp only [hfile] at hread
    by_cases hlen : ((content.drop offset).take size).length = size
    · rw [if_pos hlen] at hread
      by_cases htarget : fileNum = target
      · subst htarget
        have hkept : ((content ++ extra).drop offset).take size = (content.drop offset).take size := by
          rw [List.drop_append, List.take_append_of_le_length]
          rw [List.length_take] at hlen
          omega
        simp only [Disk.append, if_pos, hfile, Option.getD_some, hkept, if_pos hlen]
        exact hread
      · simp only [Disk.append, if_neg htarget, hfile, if_pos hlen]
        exact hread
    · rw [if_neg hlen] at hread
      cases hread

/-- The bytes just appended to a file are the ones before its new end. -/
theorem readFromFile_append_self (disk : Disk) (fileNum : Nat) (data : Bytes) :
    readFromFile (disk.append fileNum data) fileNum ((disk.append fileNum data).sizeOf fileNum - data.length)
      data.length = some data := by
  have hfile : (disk.append fileNum data).blk fileNum = some ((disk.blk fileNum).getD [] ++ data) := by
    simp [Disk.append]
  have hdrop : ((disk.blk fileNum).getD [] ++ data).drop
      (((disk.blk fileNum).getD [] ++ data).length - data.length) = data := by
    rw [List.length_append, Nat.add_sub_cancel, List.drop_left]
  simp only [readFromFile, Disk.sizeOf, hfile, hdrop, List.take_length, if_pos]

section Index

variable [Memory]

theorem loadIndex_loaded (s : CBlockStorage) : s.loadIndex.loaded = true := by
  unfold loadIndex
  by_cases hloaded : s.loaded = true
  · rw [if_pos hloaded]
    exact hloaded
  · rw [if_neg hloaded]
    cases s.disk.indexDat with
    | none => rfl
    | some content =>
      simp only
      split <;> rfl

theorem loadIndex_of_loaded {s : CBlockStorage} (hloaded : s.loaded = true) : s.loadIndex = s := by
  rw [loadIndex, if_pos hloaded]

theorem loadIndex_loadIndex (s : CBlockStorage) : s.loadIndex.loadIndex = s.loadIndex :=
  loadIndex_of_loaded s.loadIndex_loaded

theorem loadIndex_disk (s : CBlockStorage) : s.loadIndex.disk = s.disk := by
  unfold loadIndex
  by_cases hloaded : s.loaded = true
  · rw [if_pos hloaded]
  · rw [if_neg hloaded]
    cases s.disk.indexDat with
    | none => rfl
    | some content =>
      simp only
      split <;> rfl

end Index

variable [Crypto]

theorem lookup_eq_some_iff {s : CBlockStorage} {hash : UInt256} {blk : CBlock} :
    s.lookup hash = some blk ↔
      ∃ pos data, s.index[hash]? = some pos ∧ readFromFile s.disk pos.fileNum pos.offset pos.size = some data ∧
        deserializeBlock data = some blk ∧ blk.getHash = hash := by
  unfold lookup
  constructor
  · intro hlookup
    cases hpos : s.index[hash]? with
    | none => simp [hpos] at hlookup
    | some pos =>
      cases hdata : readFromFile s.disk pos.fileNum pos.offset pos.size with
      | none => simp [hpos, hdata] at hlookup
      | some data =>
        cases hblk : deserializeBlock data with
        | none => simp [hpos, hdata, hblk] at hlookup
        | some found =>
          simp only [hpos, hdata, hblk] at hlookup
          by_cases hhash : found.getHash = hash
          · rw [if_neg (not_not.mpr hhash)] at hlookup
            cases hlookup
            exact ⟨pos, data, rfl, hdata, hblk, hhash⟩
          · rw [if_pos hhash] at hlookup
            cases hlookup
  · rintro ⟨pos, data, hpos, hdata, hblk, hhash⟩
    simp only [hpos, hdata, hblk]
    rw [if_neg (not_not.mpr hhash)]

/-- The state of the storage that `WriteBlock` leaves. -/
theorem writeBlock_eq (s : CBlockStorage) (blk : CBlock) (height : Int) :
    ∃ fileNum, s.writeBlock blk height =
      saveIndex {
        disk := s.disk.append fileNum (serializeBlock blk)
        index := s.index.insert blk.getHash {
          height := height
          fileNum := fileNum
          offset := (s.disk.append fileNum (serializeBlock blk)).sizeOf fileNum - (serializeBlock blk).length
          size := (serializeBlock blk).length }
        loaded := s.loaded } := ⟨_, rfl⟩

/-- A written block can be read back. -/
theorem lookup_writeBlock_self (s : CBlockStorage) {blk : CBlock} (hblk : blk.Decodable) (height : Int) :
    (s.writeBlock blk height).lookup blk.getHash = some blk := by
  obtain ⟨fileNum, hwrite⟩ := s.writeBlock_eq blk height
  rw [hwrite, lookup_eq_some_iff]
  refine ⟨_, serializeBlock blk, orderedMap.lookup_insert .. |>.trans (if_pos rfl), ?_, ?_, rfl⟩
  · exact readFromFile_append_self s.disk fileNum (serializeBlock blk)
  · have hread := deserializeBlock_serializeBlock hblk []
    rwa [List.append_nil] at hread

/-- A write keeps every block stored under another hash. -/
theorem lookup_writeBlock_of_ne {s : CBlockStorage} {hash : UInt256} {found : CBlock}
    (hfound : s.lookup hash = some found) {blk : CBlock} (hne : hash ≠ blk.getHash) (height : Int) :
    (s.writeBlock blk height).lookup hash = some found := by
  obtain ⟨pos, data, hpos, hdata, hblk, hhash⟩ := lookup_eq_some_iff.mp hfound
  obtain ⟨fileNum, hwrite⟩ := s.writeBlock_eq blk height
  rw [hwrite, lookup_eq_some_iff]
  refine ⟨pos, data, ?_, readFromFile_append hdata fileNum _, hblk, hhash⟩
  exact (orderedMap.lookup_insert ..).trans ((if_neg hne).trans hpos)

theorem lookup_saveChainState (s : CBlockStorage) (view : CCoinsView) (height : Int) (tipHash : UInt256)
    (byHeight : List UInt256) (hash : UInt256) :
    (s.saveChainState view height tipHash byHeight).lookup hash = s.lookup hash := rfl

/-- The first write to an empty directory. -/
theorem writeBlock_empty (blk : CBlock) (height : Int) :
    ({} : CBlockStorage).writeBlock blk height = CBlockStorage.saveIndex {
      disk := ({} : Disk).append 0 (serializeBlock blk)
      index := (∅ : Std.ExtTreeMap UInt256 BlockPos).insert blk.getHash
        { height := height, fileNum := 0, offset := 0, size := (serializeBlock blk).length } } := by
  have hsize : (({} : Disk).append 0 (serializeBlock blk)).sizeOf 0 = (serializeBlock blk).length := rfl
  have hwrite : ({} : CBlockStorage).writeBlock blk height = CBlockStorage.saveIndex {
      disk := ({} : Disk).append 0 (serializeBlock blk)
      index := (∅ : Std.ExtTreeMap UInt256 BlockPos).insert blk.getHash {
        height := height
        fileNum := 0
        offset := (({} : Disk).append 0 (serializeBlock blk)).sizeOf 0 - (serializeBlock blk).length
        size := (serializeBlock blk).length } } := rfl
  rw [hwrite, hsize, Nat.sub_self]

variable [Memory]

/-- The block that `ReadBlock` returns for a hash. -/
def stored (s : CBlockStorage) (hash : UInt256) : Option CBlock := s.loadIndex.lookup hash

theorem readBlock_eq (s : CBlockStorage) (hash : UInt256) : s.readBlock hash = (s.stored hash, s.loadIndex) := rfl

/-- Loading the index changes nothing that a read can see. -/
theorem stored_loadIndex (s : CBlockStorage) (hash : UInt256) : s.loadIndex.stored hash = s.stored hash := by
  rw [stored, loadIndex_loadIndex, stored]

theorem stored_hash {s : CBlockStorage} {hash : UInt256} {blk : CBlock} (hstored : s.stored hash = some blk) :
    blk.getHash = hash := by
  obtain ⟨_, _, _, _, _, hhash⟩ := lookup_eq_some_iff.mp hstored
  exact hhash

theorem stored_of_loaded {s : CBlockStorage} (hloaded : s.loaded = true) (hash : UInt256) :
    s.stored hash = s.lookup hash := by
  rw [stored, loadIndex_of_loaded hloaded]

/-- A block written to a storage whose index is loaded can be read. -/
theorem stored_writeBlock_self (s : CBlockStorage) {blk : CBlock} (hblk : blk.Decodable) (height : Int) :
    (s.loadIndex.writeBlock blk height).stored blk.getHash = some blk := by
  rw [stored_of_loaded (show (s.loadIndex.writeBlock blk height).loaded = true from s.loadIndex_loaded),
    lookup_writeBlock_self _ hblk]

/-- The write keeps every block stored under another hash. -/
theorem stored_writeBlock_of_ne {s : CBlockStorage} {hash : UInt256} {found : CBlock}
    (hfound : s.stored hash = some found) {blk : CBlock} (hne : hash ≠ blk.getHash) (height : Int) :
    (s.loadIndex.writeBlock blk height).stored hash = some found := by
  rw [stored_of_loaded (show (s.loadIndex.writeBlock blk height).loaded = true from s.loadIndex_loaded)]
  exact lookup_writeBlock_of_ne hfound hne height

/-- Saving the chain state is invisible to block reads. -/
theorem stored_saveChainState {s : CBlockStorage} (hloaded : s.loaded = true) (view : CCoinsView) (height : Int)
    (tipHash : UInt256) (byHeight : List UInt256) (hash : UInt256) :
    (s.saveChainState view height tipHash byHeight).stored hash = s.stored hash := by
  have hsaved : (s.saveChainState view height tipHash byHeight).loaded = true := hloaded
  rw [stored_of_loaded hloaded, stored_of_loaded hsaved, lookup_saveChainState]

end CBlockStorage

end cdx
