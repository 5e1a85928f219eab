import Cdx.Blockchain.Regtest
import Cdx.Lib.Transition
import Cdx.Storage.Restore
import Cdx.Transaction.Canonical

namespace cdx

open codec CBlockStorage

/-- What is done with one data directory: a new `CBlockStorage` is opened on it, and
    the one opened last is called. -/
inductive StorageOp where
  | construct
  | writeBlock (blk : CBlock) (height : Int64)
  | readBlock (hash : UInt256)
  | hasBlock (hash : UInt256)

/-- The storage object in use, and the blocks written to the directory so far. -/
structure Directory where
  storage : CBlockStorage := {}
  written : List CBlock := []

namespace Directory

section Steps

variable [Crypto] [Memory]

/-- One operation. No file operation succeeds on a file number beyond `int` or on a
    file longer than `int64_t` can say. -/
def step (dir : Directory) : StorageOp → Option Directory
  | .construct => some { dir with storage := { disk := dir.storage.disk } }
  | .writeBlock blk height =>
    let (fileNum, _) := dir.storage.appendToFile (serializeBlock blk)
    let s := dir.storage.writeBlock blk height.toInt
    if fileNum < 2 ^ 31 ∧ s.disk.sizeOf fileNum < 2 ^ 63 ∧ (encodeIndex s.index).length < 2 ^ 63 then
      some { storage := s, written := blk :: dir.written }
    else none
  | .readBlock hash => some { dir with storage := (dir.storage.readBlock hash).2 }
  | .hasBlock hash => some { dir with storage := (dir.storage.hasBlock hash).2 }

/-- Every block written so far can be read. -/
def Kept (dir : Directory) : Prop := ∀ blk ∈ dir.written, (dir.storage.readBlock blk.getHash).1 = some blk

omit [Memory] in
/-- The condition on an operation. A directory with more blocks than `LoadIndex` takes is not
    opened again; a block is written only if it can be decoded, and only while every other
    block of the directory is in the index in memory. -/
def Keeps (dir : Directory) : StorageOp → Prop
  | .construct => (dir.written.map CBlock.getHash).toFinset.card ≤ 100000000
  | .writeBlock blk _ => blk.Decodable ∧ ∀ old ∈ dir.written, old = blk ∨ old.getHash ∈ dir.storage.index
  | .readBlock _ => True
  | .hasBlock _ => True

end Steps

/-- The index on disk is `saved`, and the one in memory is the same or still to be loaded. -/
structure IndexFile (s : CBlockStorage) (saved : Std.ExtTreeMap UInt256 BlockPos) : Prop where
  file : s.disk.indexDat = some (encodeIndex saved) ∨ s.disk.indexDat = none ∧ saved = ∅
  size : saved.size < 256 ^ 8
  storable : ∀ (hash : UInt256) (pos : BlockPos), saved[hash]? = some pos → pos.Storable
  memory : s.index = saved ∨ s.loaded = false ∧ s.index = ∅ ∧ saved.size ≤ 100000000

section Index

variable [Memory]

theorem IndexFile.loadIndex_eq {s : CBlockStorage} {saved : Std.ExtTreeMap UInt256 BlockPos} (hfile : IndexFile s saved) :
    s.loadIndex = { s with loaded := true, index := saved } := by
  obtain ⟨hdisk, hsize, hstorable, hmemory⟩ := hfile
  cases hloaded : s.loaded with
  | true =>
    rw [loadIndex_of_loaded hloaded]
    obtain hindex | ⟨hunloaded, -, -⟩ := hmemory
    · rw [← hindex, ← hloaded]
    · rw [hloaded] at hunloaded
      cases hunloaded
  | false =>
    obtain hdisk | ⟨hdisk, hempty⟩ := hdisk
    · by_cases hsmall : saved.size ≤ 100000000
      · apply loadIndex_of_saved hloaded hdisk hsmall hstorable
        intro hash pos hpos
        obtain hindex | ⟨-, hindex, -⟩ := hmemory
        · rw [← hindex]
          exact hpos
        · rw [hindex] at hpos
          simp at hpos
      · obtain hindex | ⟨-, -, hsmall'⟩ := hmemory
        · rw [loadIndex_of_file hloaded hdisk hsize, if_pos (by omega), hindex]
        · exact absurd hsmall' hsmall
    · have hindex : s.index = saved := by
        obtain hindex | ⟨-, hindex, -⟩ := hmemory
        · exact hindex
        · rw [hindex, hempty]
      rw [loadIndex_of_missing hloaded hdisk, hindex]

/-- Loading brings the whole index into memory. -/
theorem IndexFile.load {s : CBlockStorage} {saved : Std.ExtTreeMap UInt256 BlockPos} (hfile : IndexFile s saved) :
    IndexFile s.loadIndex saved := by
  rw [hfile.loadIndex_eq]
  exact ⟨hfile.file, hfile.size, hfile.storable, Or.inl rfl⟩

omit [Memory] in
theorem IndexFile.construct {s : CBlockStorage} {saved : Std.ExtTreeMap UInt256 BlockPos} (hfile : IndexFile s saved)
    (hsmall : saved.size ≤ 100000000) : IndexFile { disk := s.disk } saved :=
  ⟨hfile.file, hfile.size, hfile.storable, Or.inr ⟨rfl, rfl, hsmall⟩⟩

omit [Memory] in
/-- The entries in memory are entries of the file. -/
theorem IndexFile.storable_index {s : CBlockStorage} {saved : Std.ExtTreeMap UInt256 BlockPos}
    (hfile : IndexFile s saved) : ∀ (hash : UInt256) (pos : BlockPos), s.index[hash]? = some pos → pos.Storable := by
  intro hash pos hpos
  obtain hindex | ⟨-, hindex, -⟩ := hfile.memory
  · rw [hindex] at hpos
    exact hfile.storable hash pos hpos
  · rw [hindex] at hpos
    simp at hpos

end Index

section Writes

variable [Crypto] [Memory]

theorem step_writeBlock_eq_some {dir dir' : Directory} {blk : CBlock} {height : Int64}
    (hstep : dir.step (.writeBlock blk height) = some dir') :
    dir' = { storage := dir.storage.writeBlock blk height.toInt, written := blk :: dir.written } ∧
      (dir.storage.appendToFile (serializeBlock blk)).1 < 2 ^ 31 ∧
      dir'.storage.disk.sizeOf (dir.storage.appendToFile (serializeBlock blk)).1 < 2 ^ 63 ∧
      (encodeIndex dir'.storage.index).length < 2 ^ 63 := by
  unfold step at hstep
  simp only at hstep
  split at hstep
  next hlimits =>
    cases hstep
    exact ⟨rfl, hlimits⟩
  · cases hstep

/-- After a write that succeeds, the file holds the index in memory and nothing else. -/
theorem IndexFile.writeBlock {dir dir' : Directory} {saved : Std.ExtTreeMap UInt256 BlockPos}
    (hfile : IndexFile dir.storage saved) {blk : CBlock} {height : Int64}
    (hstep : dir.step (.writeBlock blk height) = some dir') : IndexFile dir'.storage dir'.storage.index := by
  obtain ⟨hdir, hfileNum, hsizeOf, hindexDat⟩ := step_writeBlock_eq_some hstep
  rw [length_encodeIndex] at hindexDat
  subst hdir
  refine ⟨Or.inl rfl, by omega, ?_, Or.inl rfl⟩
  intro hash pos hpos
  replace hpos := (orderedMap.lookup_insert ..).symm.trans hpos
  split at hpos
  · cases hpos
    have hend : (serializeBlock blk).length ≤
        (dir.storage.disk.append (dir.storage.appendToFile (serializeBlock blk)).1 (serializeBlock blk)).sizeOf
          (dir.storage.appendToFile (serializeBlock blk)).1 := by
      simp [Disk.sizeOf, Disk.append]
    have hwhole : (dir.storage.disk.append (dir.storage.appendToFile (serializeBlock blk)).1 (serializeBlock blk)).sizeOf
        (dir.storage.appendToFile (serializeBlock blk)).1 < 2 ^ 63 := hsizeOf
    exact {
      height_low := height.le_toInt
      height_high := Int64.toInt_le height
      fileNum := hfileNum.trans (by decide)
      offset := (Nat.sub_le _ _).trans_lt (hwhole.trans (by decide))
      size := hend.trans_lt (hwhole.trans (by decide)) }
  · exact hfile.storable_index hash pos hpos

end Writes

section Runs

variable [Crypto]

/-- The index on disk lists the written blocks and leads to each of them. -/
structure Tracked (dir : Directory) (saved : Std.ExtTreeMap UInt256 BlockPos) : Prop where
  indexFile : IndexFile dir.storage saved
  keys : ∀ hash, hash ∈ saved ↔ hash ∈ dir.written.map CBlock.getHash
  found : ∀ blk ∈ dir.written, { dir.storage with index := saved }.lookup blk.getHash = some blk

variable [Memory] {dir dir' : Directory} {saved : Std.ExtTreeMap UInt256 BlockPos}

theorem Tracked.kept (htracked : Tracked dir saved) : dir.Kept := by
  intro blk hblk
  rw [readBlock_eq, stored, htracked.indexFile.loadIndex_eq]
  exact htracked.found blk hblk

omit [Memory] in
theorem Tracked.size_eq (htracked : Tracked dir saved) :
    saved.size = (dir.written.map CBlock.getHash).toFinset.card := by
  apply orderedMap.size_eq_card
  intro hash
  rw [htracked.keys, List.mem_toFinset]

/-- A read or a lookup changes nothing. -/
theorem Tracked.load (htracked : Tracked dir saved) : Tracked { dir with storage := dir.storage.loadIndex } saved := by
  refine ⟨htracked.indexFile.load, htracked.keys, ?_⟩
  rw [htracked.indexFile.loadIndex_eq]
  exact htracked.found

omit [Memory] in
theorem Tracked.construct (htracked : Tracked dir saved) (hsmall : saved.size ≤ 100000000) :
    Tracked { dir with storage := { disk := dir.storage.disk } } saved :=
  ⟨htracked.indexFile.construct hsmall, htracked.keys, htracked.found⟩

theorem Tracked.kept_construct_iff (htracked : Tracked dir saved) :
    Kept { dir with storage := { disk := dir.storage.disk } } ↔ dir.Keeps .construct := by
  rw [Keeps, ← htracked.size_eq]
  constructor
  · intro hkept
    by_contra hlarge
    obtain ⟨blk, hblk⟩ : ∃ blk, blk ∈ dir.written := by
      apply List.exists_mem_of_ne_nil
      intro hnone
      have hsize := htracked.size_eq
      rw [hnone, List.map_nil, List.toFinset_nil, Finset.card_empty] at hsize
      omega
    have hread := hkept blk hblk
    obtain hfile | ⟨-, hempty⟩ := htracked.indexFile.file
    · have hload : ({ disk := dir.storage.disk } : CBlockStorage).loadIndex = { disk := dir.storage.disk, loaded := true } := by
        have hreopened : ({ disk := dir.storage.disk } : CBlockStorage).disk.indexDat = some (encodeIndex saved) := hfile
        rw [loadIndex_of_file rfl hreopened htracked.indexFile.size, if_pos (by omega)]
      obtain ⟨pos, -, hpos, -⟩ := lookup_eq_some_iff.mp hread
      rw [hload] at hpos
      simp at hpos
    · rw [hempty] at hlarge
      simp at hlarge
  · intro hsmall
    exact (htracked.construct hsmall).kept

/-- What a write must meet, seen from the state after it. -/
theorem Tracked.keeps_of_kept (htracked : Tracked dir saved) {blk : CBlock} {height : Int64}
    (hdistinct : ∀ old ∈ dir.written, old.getHash = blk.getHash → old = blk)
    (hstep : dir.step (.writeBlock blk height) = some dir') (hkept : dir'.Kept) :
    dir.Keeps (.writeBlock blk height) := by
  have hfile := htracked.indexFile.writeBlock hstep
  obtain ⟨hdir, -⟩ := step_writeBlock_eq_some hstep
  have hread : ∀ old ∈ dir'.written, dir'.storage.loadIndex.lookup old.getHash = some old := hkept
  rw [hfile.loadIndex_eq] at hread
  subst hdir
  rw [List.forall_mem_cons] at hread
  refine ⟨?_, ?_⟩
  · obtain ⟨_, data, -, -, hdata, -⟩ := lookup_eq_some_iff.mp hread.1
    exact decodable_of_deserializeBlock hdata
  · intro old hold
    obtain ⟨pos, -, hpos, -⟩ := lookup_eq_some_iff.mp (hread.2 old hold)
    replace hpos := (orderedMap.lookup_insert ..).symm.trans hpos
    split at hpos
    next hsame => exact Or.inl (hdistinct old hold hsame)
    · exact Or.inr (Std.ExtTreeMap.mem_iff_isSome_getElem?.mpr (by rw [hpos]; rfl))

theorem Tracked.writeBlock (htracked : Tracked dir saved) {blk : CBlock} {height : Int64}
    (hdistinct : ∀ old ∈ dir.written, old.getHash = blk.getHash → old = blk)
    (hkeeps : dir.Keeps (.writeBlock blk height)) (hstep : dir.step (.writeBlock blk height) = some dir') :
    Tracked dir' dir'.storage.index := by
  obtain ⟨hblk, hothers⟩ := hkeeps
  have hfile := htracked.indexFile.writeBlock hstep
  obtain ⟨hdir, -⟩ := step_writeBlock_eq_some hstep
  subst hdir
  have hself := dir.storage.lookup_writeBlock_self hblk height.toInt
  refine ⟨hfile, ?_, ?_⟩
  · intro hash
    have hinsert : hash ∈ (dir.storage.writeBlock blk height.toInt).index ↔
        hash = blk.getHash ∨ hash ∈ dir.storage.index := orderedMap.mem_insert ..
    rw [hinsert, List.map_cons, List.mem_cons]
    obtain hindex | ⟨-, hindex, -⟩ := htracked.indexFile.memory
    · rw [hindex, htracked.keys]
    · constructor
      · exact fun h => h.imp_right (by simp [hindex])
      · rintro (hself | hmem)
        · exact Or.inl hself
        · obtain ⟨old, hold, rfl⟩ := List.mem_map.mp hmem
          exact (hothers old hold).imp_left (congrArg CBlock.getHash)
  · rw [List.forall_mem_cons]
    refine ⟨hself, ?_⟩
    intro old hold
    by_cases hsame : old = blk
    · rw [hsame]
      exact hself
    · have hne : old.getHash ≠ blk.getHash := fun h => hsame (hdistinct old hold h)
      apply lookup_writeBlock_of_ne _ hne
      obtain hindex | ⟨-, hindex, -⟩ := htracked.indexFile.memory
      · have hfound := htracked.found old hold
        rwa [← hindex] at hfound
      · have hmem := (hothers old hold).resolve_left hsame
        rw [hindex] at hmem
        simp at hmem

/-- The hash of the block an operation writes names no other block of the directory. -/
def Distinct (dir : Directory) : StorageOp → Prop
  | .writeBlock blk _ => ∀ old ∈ dir.written, old.getHash = blk.getHash → old = blk
  | _ => True

theorem Tracked.step {op : StorageOp} (htracked : Tracked dir saved) (hdistinct : dir.Distinct op)
    (hkeeps : dir.Keeps op) (hstep : dir.step op = some dir') : ∃ saved', Tracked dir' saved' := by
  cases op with
  | construct =>
    cases hstep
    rw [Keeps, ← htracked.size_eq] at hkeeps
    exact ⟨saved, htracked.construct hkeeps⟩
  | writeBlock blk height => exact ⟨_, htracked.writeBlock hdistinct hkeeps hstep⟩
  | readBlock hash =>
    cases hstep
    exact ⟨saved, htracked.load⟩
  | hasBlock hash =>
    cases hstep
    exact ⟨saved, htracked.load⟩

/-- The condition says exactly whether the operation keeps every written block readable. -/
theorem Tracked.kept_step_iff {op : StorageOp} (htracked : Tracked dir saved) (hdistinct : dir.Distinct op)
    (hstep : dir.step op = some dir') : dir'.Kept ↔ dir.Keeps op := by
  refine ⟨?_, fun hkeeps => ?_⟩
  · cases op with
    | construct =>
      cases hstep
      exact htracked.kept_construct_iff.mp
    | writeBlock blk height => exact htracked.keeps_of_kept hdistinct hstep
    | readBlock hash => exact fun _ => trivial
    | hasBlock hash => exact fun _ => trivial
  · obtain ⟨saved', htracked'⟩ := htracked.step hdistinct hkeeps hstep
    exact htracked'.kept

omit [Crypto] [Memory] in
/-- The blocks that the operations write. -/
def writtenBy (ops : List StorageOp) : Set CBlock := {blk | ∃ height, StorageOp.writeBlock blk height ∈ ops}

theorem written_step {ops : List StorageOp} {op : StorageOp} (hop : op ∈ ops)
    (hwritten : ∀ blk ∈ dir.written, blk ∈ writtenBy ops) (hstep : dir.step op = some dir') :
    ∀ blk ∈ dir'.written, blk ∈ writtenBy ops := by
  cases op with
  | writeBlock blk height =>
    obtain ⟨rfl, -⟩ := step_writeBlock_eq_some hstep
    exact List.forall_mem_cons.mpr ⟨⟨height, hop⟩, hwritten⟩
  | construct | readBlock | hasBlock =>
    cases hstep
    exact hwritten

omit [Memory] in
theorem distinct_of_injOn {ops : List StorageOp} {op : StorageOp} (hhashes : Set.InjOn CBlock.getHash (writtenBy ops))
    (hop : op ∈ ops) (hwritten : ∀ blk ∈ dir.written, blk ∈ writtenBy ops) : dir.Distinct op := by
  cases op with
  | writeBlock blk height => exact fun old hold hsame => hhashes (hwritten old hold) ⟨height, hop⟩ hsame
  | construct | readBlock | hasBlock => trivial

omit [Memory] in
theorem tracked_empty : Tracked {} ∅ := by
  refine ⟨⟨Or.inr ⟨rfl, rfl⟩, by simp, by simp, Or.inl rfl⟩, by simp, ?_⟩
  intro blk hblk
  cases hblk

/-- Every block written to a directory stays readable, whatever is done with the directory,
    exactly when every operation meets its condition. -/
theorem run_kept_iff {ops : List StorageOp} {final : Directory}
    (hhashes : Set.InjOn CBlock.getHash (writtenBy ops)) (hrun : transition.run step {} ops = some final) :
    (∀ dir, transition.Visits step {} ops dir → dir.Kept) ↔
      ∀ dir op, transition.Takes step {} ops dir op → dir.Keeps op := by
  apply transition.visits_iff_takes
    (I := fun dir => (∀ blk ∈ dir.written, blk ∈ writtenBy ops) ∧ (dir.Kept → ∃ saved, Tracked dir saved)) _ _ _ _ hrun
  · intro dir op dir' hop ⟨hwritten, htracked⟩ hkept hstep
    obtain ⟨saved, htracked⟩ := htracked hkept
    have hdistinct := distinct_of_injOn hhashes hop hwritten
    refine ⟨written_step hop hwritten hstep, ?_⟩
    intro hkept'
    exact htracked.step hdistinct ((htracked.kept_step_iff hdistinct hstep).mp hkept') hstep
  · intro dir op dir' hop ⟨hwritten, htracked⟩ hkept hstep
    obtain ⟨saved, htracked⟩ := htracked hkept
    exact htracked.kept_step_iff (distinct_of_injOn hhashes hop hwritten) hstep
  · exact ⟨by simp, fun _ => ⟨∅, tracked_empty⟩⟩
  · exact tracked_empty.kept

end Runs

section

attribute [local instance] toolCrypto zeroMemory

theorem getHash_injOn_first_rival : Set.InjOn CBlock.getHash {firstBlock, rivalBlock} := by
  have hne : firstBlock.getHash ≠ rivalBlock.getHash := by
    rw [← tableCrypto_eq digests_right]
    decide +kernel
  rintro a (rfl | rfl) b (rfl | rfl) hsame
  · rfl
  · exact absurd hsame hne
  · exact absurd hsame.symm hne
  · rfl

/-- A second object on the directory that looks a block up before it writes one. -/
def lookupFirst : List StorageOp :=
  [.writeBlock firstBlock 1, .construct, .hasBlock firstBlock.getHash, .writeBlock rivalBlock 1]

theorem run_kept_lookupFirst : ∃ final, transition.run step {} lookupFirst = some final ∧
    ∀ dir, transition.Visits step {} lookupFirst dir → dir.Kept := by
  obtain ⟨final, hrun⟩ : ∃ final, transition.run step {} lookupFirst = some final := by
    apply Option.isSome_iff_exists.mp
    unfold lookupFirst
    rw [← tableCrypto_eq digests_right]
    decide +kernel
  have hhashes : Set.InjOn CBlock.getHash (writtenBy lookupFirst) := by
    apply getHash_injOn_first_rival.mono
    rintro blk ⟨height, hop⟩
    simp only [lookupFirst, List.mem_cons, StorageOp.writeBlock.injEq, reduceCtorEq, List.not_mem_nil, false_or,
      or_false] at hop
    exact hop.imp And.left And.left
  refine ⟨final, hrun, (run_kept_iff hhashes hrun).mpr ?_⟩
  rintro dir op (⟨rfl, rfl⟩ |
    ⟨dir1, hfirst, ⟨rfl, rfl⟩ | ⟨dir2, hreopened, ⟨rfl, rfl⟩ | ⟨dir3, hloaded, ⟨rfl, rfl⟩ | ⟨_, _, hnone⟩⟩⟩⟩)
  · exact ⟨by decide, by simp⟩
  · obtain ⟨rfl, -⟩ := step_writeBlock_eq_some hfirst
    simp [Keeps]
  · trivial
  · obtain ⟨rfl, -⟩ := step_writeBlock_eq_some hfirst
    cases hreopened
    cases hloaded
    refine ⟨by decide, ?_⟩
    rw [List.forall_mem_singleton]
    right
    rw [← tableCrypto_eq digests_right]
    decide +kernel
  · exact hnone.elim

/-- A second object that writes first: the index it saves has forgotten the first block. -/
theorem kept_fails_writeFirst :
    Set.InjOn CBlock.getHash (writtenBy [.writeBlock firstBlock 1, .construct, .writeBlock rivalBlock 1]) ∧
      ∃ final, transition.run step {} [.writeBlock firstBlock 1, .construct, .writeBlock rivalBlock 1] = some final ∧
        firstBlock ∈ final.written ∧ (final.storage.readBlock firstBlock.getHash).1 = none := by
  refine ⟨?_, ?_⟩
  · apply getHash_injOn_first_rival.mono
    rintro blk ⟨height, hop⟩
    simp only [List.mem_cons, StorageOp.writeBlock.injEq, reduceCtorEq, List.not_mem_nil, false_or, or_false] at hop
    exact hop.imp And.left And.left
  · have hrun : (transition.run step {} [.writeBlock firstBlock 1, .construct, .writeBlock rivalBlock 1]).map
        (fun dir => (dir.written.contains firstBlock, (dir.storage.readBlock firstBlock.getHash).1)) =
          some (true, none) := by
      rw [← tableCrypto_eq digests_right]
      decide +kernel
    obtain ⟨final, hfinal, hpair⟩ := Option.map_eq_some_iff.mp hrun
    rw [Prod.mk.injEq, List.contains_iff_mem] at hpair
    exact ⟨final, hfinal, hpair⟩

end

end Directory

end cdx
