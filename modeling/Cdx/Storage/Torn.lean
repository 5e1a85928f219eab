import Cdx.Blockchain.Regtest
import Cdx.Storage.Restore

namespace cdx

open codec stream

section Segments

/-- A number that `LoadChainState` reads into its buffer of eight bytes. -/
def numberSegment (bytes : Bytes) : Segment UInt8 := { bytes := bytes, kept := true }

/-- A number that is read into the buffer and compared with a limit. -/
def limitedSegment (n limit : Nat) : Segment UInt8 :=
  { bytes := leEncode 8 n, kept := true, check := fun bytes => decide (leDecode bytes ≤ limit) }

/-- Bytes that are read elsewhere. -/
def otherSegment (bytes : Bytes) : Segment UInt8 := { bytes := bytes, kept := false }

/-- The segments of a coin before its script. -/
def coinHead (entry : COutPoint × CUTXO) : List (Segment UInt8) :=
  [otherSegment entry.1.hash.getBytesLE, numberSegment (writeU32 entry.1.n), numberSegment (writeU64 entry.2.value.toUInt64),
    numberSegment (writeI64 entry.2.height), otherSegment [if entry.2.isCoinbase then 1 else 0]] ++
    [limitedSegment entry.2.scriptPubKey.val.length 100000]

def coinSegments (entry : COutPoint × CUTXO) : List (Segment UInt8) :=
  coinHead entry ++ [entry.2.scriptPubKey.val].map otherSegment

/-- The segments before the hashes. -/
def stateHead (height : Int) (tipHash : UInt256) (byHeight : List UInt256) : List (Segment UInt8) :=
  [numberSegment (writeI64 height), otherSegment tipHash.getBytesLE] ++ [limitedSegment byHeight.length 100000000]

/-- The segments after the hashes. -/
def utxoSegments (view : CCoinsView) : List (Segment UInt8) :=
  [limitedSegment view.utxo.size 1000000000] ++ view.utxo.toList.flatMap coinSegments

/-- The segments of `chainstate.dat` after its magic. -/
def chainStateSegments (view : CCoinsView) (height : Int) (tipHash : UInt256) (byHeight : List UInt256) :
    List (Segment UInt8) :=
  stateHead height tipHash byHeight ++ ((byHeight.map UInt256.getBytesLE).map otherSegment ++ utxoSegments view)

theorem limitedSegment_passes_iff {n : Nat} (hn : n < 2 ^ 64) (limit : Nat) :
    (limitedSegment n limit).check (limitedSegment n limit).bytes = true ↔ n ≤ limit := by
  have hdecode : leDecode (leEncode 8 n) = n := leDecode_leEncode_of_lt hn
  simp only [limitedSegment, hdecode, decide_eq_true_iff]

/-- Segments of which only the last has a limit. -/
theorem passes_concat_iff {segments : List (Segment UInt8)} (hfree : ∀ f ∈ segments, f.check f.bytes = true) {n : Nat}
    (hn : n < 2 ^ 64) (limit : Nat) :
    (∀ f ∈ segments ++ [limitedSegment n limit], f.check f.bytes = true) ↔ n ≤ limit := by
  rw [List.forall_mem_append, List.forall_mem_singleton, limitedSegment_passes_iff hn]
  exact and_iff_right hfree

theorem fileOf_coinSegments (entry : COutPoint × CUTXO) : fileOf (coinSegments entry) = encodeCoin entry := by
  simp [fileOf, coinSegments, coinHead, encodeCoin, numberSegment, limitedSegment, otherSegment]

theorem fileOf_flatMap_coinSegments (entries : List (COutPoint × CUTXO)) :
    fileOf (entries.flatMap coinSegments) = entries.flatMap encodeCoin := by
  induction entries with
  | nil => rfl
  | cons entry rest ih => rw [List.flatMap_cons, fileOf_append, fileOf_coinSegments, ih, List.flatMap_cons]

theorem fileOf_hashes (hashes : List UInt256) :
    fileOf ((hashes.map UInt256.getBytesLE).map otherSegment) = hashes.flatMap UInt256.getBytesLE := by
  rw [fileOf, List.flatMap_map, List.flatMap_map]
  rfl

/-- The file is its magic and its segments. -/
theorem encodeChainState_eq (view : CCoinsView) (height : Int) (tipHash : UInt256) (byHeight : List UInt256) :
    encodeChainState view height tipHash byHeight =
      chainStateMagic ++ fileOf (chainStateSegments view height tipHash byHeight) := by
  rw [chainStateSegments, utxoSegments, fileOf_append, fileOf_append, fileOf_append, fileOf_hashes, fileOf_flatMap_coinSegments]
  simp [encodeChainState, fileOf, stateHead, numberSegment, limitedSegment, otherSegment]

/-- The loader goes on to the end of the file: it accepts all the numbers that are whole,
    and what the cut leaves in its buffer passes for every count and length that is missing. -/
def Survives (buf : Bytes) (segments : List (Segment UInt8)) (k : Nat) : Prop :=
  (∀ f ∈ (cut segments k).dropLast, f.check f.bytes = true) ∧ leDecode ((cut segments k).foldl Segment.fill buf) ≤ 100000

theorem survives_append_of_lt {segments : List (Segment UInt8)} {k : Nat} (hk : k < (fileOf segments).length) (buf : Bytes)
    (rest : List (Segment UInt8)) : Survives buf (segments ++ rest) k ↔ Survives buf segments k := by
  rw [Survives, Survives, cut_append_of_lt hk]

theorem survives_append_of_le {segments rest : List (Segment UInt8)} {k : Nat} (hk : (fileOf segments).length ≤ k)
    (hcut : k < (fileOf (segments ++ rest)).length) (buf : Bytes) :
    Survives buf (segments ++ rest) k ↔ (∀ f ∈ segments, f.check f.bytes = true) ∧
      Survives (segments.foldl Segment.fill buf) rest (k - (fileOf segments).length) := by
  rw [fileOf_append, List.length_append] at hcut
  have hne : cut rest (k - (fileOf segments).length) ≠ [] := cut_ne_nil (by omega)
  rw [Survives, Survives, cut_append_of_le hk, List.dropLast_append_of_ne_nil hne, List.forall_mem_append,
    List.foldl_append, and_assoc]

/-- A cut before the end of segments of which only the last has a limit. -/
theorem survives_iff_of_lt {segments : List (Segment UInt8)} {k : Nat} (hk : k < (fileOf segments).length)
    (hfree : ∀ f ∈ segments.dropLast, f.check f.bytes = true) (buf : Bytes) :
    Survives buf segments k ↔ leDecode ((cut segments k).foldl Segment.fill buf) ≤ 100000 :=
  and_iff_right fun f hf => hfree f (mem_dropLast_of_cut hk hf)

/-- A cut in bytes that are read elsewhere. -/
theorem survives_others {bytes : List Bytes} {k : Nat} (hk : k < (fileOf (bytes.map otherSegment)).length) (buf : Bytes) :
    Survives buf (bytes.map otherSegment) k ↔ leDecode buf ≤ 100000 := by
  have hfree : ∀ f ∈ bytes.map otherSegment, f.check f.bytes = true := by simp [otherSegment]
  rw [survives_iff_of_lt hk fun f hf => hfree f (List.mem_of_mem_dropLast hf),
    foldl_fill_cut_of_not_kept (by simp [otherSegment])]

/-- A cut behind bytes that are read elsewhere. -/
theorem survives_others_append {bytes : List Bytes} {rest : List (Segment UInt8)} {k : Nat}
    (hk : (fileOf (bytes.map otherSegment)).length ≤ k) (hcut : k < (fileOf (bytes.map otherSegment ++ rest)).length)
    (buf : Bytes) :
    Survives buf (bytes.map otherSegment ++ rest) k ↔ Survives buf rest (k - (fileOf (bytes.map otherSegment)).length) := by
  rw [survives_append_of_le hk hcut, foldl_fill_of_not_kept (by simp [otherSegment])]
  exact and_iff_right (by simp [otherSegment])

/-- After the head of a coin the buffer holds the length of its script. -/
theorem fill_coinHead (entry : COutPoint × CUTXO) {buf : Bytes} (hbuf : buf.length = 8) :
    (coinHead entry).foldl Segment.fill buf = leEncode 8 entry.2.scriptPubKey.val.length := by
  refine foldl_fill_concat ?_ rfl ((length_leEncode 8 _).trans hbuf.symm)
  simp [hbuf, numberSegment, otherSegment, writeU32, writeU64, length_writeI64]

theorem coinHead_unlimited (entry : COutPoint × CUTXO) : ∀ f ∈ (coinHead entry).dropLast, f.check f.bytes = true := by
  simp [coinHead, numberSegment, otherSegment]

theorem coinHead_passes_iff (entry : COutPoint × CUTXO) :
    (∀ f ∈ coinHead entry, f.check f.bytes = true) ↔ entry.2.scriptPubKey.val.length ≤ 100000 :=
  passes_concat_iff (coinHead_unlimited entry) entry.2.scriptPubKey.property 100000

/-- Before the hashes the buffer holds their number. -/
theorem fill_stateHead (height : Int) (tipHash : UInt256) (byHeight : List UInt256) {buf : Bytes} (hbuf : buf.length = 8) :
    (stateHead height tipHash byHeight).foldl Segment.fill buf = leEncode 8 byHeight.length := by
  refine foldl_fill_concat ?_ rfl ((length_leEncode 8 _).trans hbuf.symm)
  simp [hbuf, numberSegment, otherSegment, length_writeI64]

theorem stateHead_unlimited (height : Int) (tipHash : UInt256) (byHeight : List UInt256) :
    ∀ f ∈ (stateHead height tipHash byHeight).dropLast, f.check f.bytes = true := by
  simp [stateHead, numberSegment, otherSegment]

theorem stateHead_passes_iff (height : Int) (tipHash : UInt256) {byHeight : List UInt256} (hlength : byHeight.length < 2 ^ 64) :
    (∀ f ∈ stateHead height tipHash byHeight, f.check f.bytes = true) ↔ byHeight.length ≤ 100000000 :=
  passes_concat_iff (stateHead_unlimited height tipHash byHeight) hlength 100000000

end Segments

section Coins

variable [Memory]

/-- Whether the coin loop ends well does not depend on the coins it has collected. -/
theorem loadCoins_fst (n : Nat) (buf : Bytes) (inp : InStream UInt8) (view view' : CCoinsView) :
    (loadCoins n buf inp view).1 = (loadCoins n buf inp view').1 := by
  induction n generalizing buf inp view view' with
  | zero => rfl
  | succ n ih =>
    rw [loadCoins, loadCoins]
    simp only
    split
    · exact ih ..
    · rfl

omit [Memory] in
theorem loadScript_snd (scriptLen : Nat) (hlen : scriptLen ≤ 100000) (inp : InStream UInt8) :
    (loadScript scriptLen hlen inp).2 = (read scriptLen [] inp).2 :=
  read_snd ..

/-- The reads of one round of the coin loop before the script: the buffer and the stream after them. -/
def coinReads (buf : Bytes) (inp : InStream UInt8) : Bytes × InStream UInt8 :=
  let inp := (read 32 (Memory.uninit 32) inp).2
  let (buf, inp) := read 4 buf inp
  let (buf, inp) := read 8 buf inp
  let (buf, inp) := read 8 buf inp
  let inp := (read 1 (Memory.uninit 1) inp).2
  read 8 buf inp

/-- The reads are those of a coin's head, whatever coin that is. -/
theorem coinReads_eq (entry : COutPoint × CUTXO) (buf : Bytes) (inp : InStream UInt8) :
    coinReads buf inp = skim (coinHead entry) buf inp := by
  have hnumber : (writeU32 entry.1.n).length = 4 := length_leEncode 4 _
  have hvalue : (writeU64 entry.2.value.toUInt64).length = 8 := length_leEncode 8 _
  have hflag : [if entry.2.isCoinbase then (1 : UInt8) else 0].length = 1 := rfl
  simp only [coinReads, coinHead, List.cons_append, List.nil_append, skim, numberSegment, otherSegment, limitedSegment, UInt256.length_getBytesLE, hnumber,
    hvalue, length_writeI64, hflag, length_leEncode, if_true, Bool.false_eq_true, if_false]
  rw [read_snd 32 (Memory.uninit 32) buf inp, read_snd 1 (Memory.uninit 1)]

theorem coinReads_failed (buf rest : Bytes) : coinReads buf ⟨rest, false⟩ = (buf, ⟨rest, false⟩) := rfl

/-- Whether the coin loop ends well, from one round to the next. -/
theorem loadCoins_succ (n : Nat) (buf : Bytes) (inp : InStream UInt8) (view : CCoinsView) :
    (loadCoins (n + 1) buf inp view).1 = true ↔
      leDecode (coinReads buf inp).1 ≤ 100000 ∧
        (loadCoins n (coinReads buf inp).1 (read (leDecode (coinReads buf inp).1) [] (coinReads buf inp).2).2
          .empty).1 = true := by
  obtain ⟨next, hround⟩ : ∃ next : leDecode (coinReads buf inp).1 ≤ 100000 → CCoinsView,
      loadCoins (n + 1) buf inp view =
        if hlen : leDecode (coinReads buf inp).1 ≤ 100000 then
          loadCoins n (coinReads buf inp).1 (loadScript _ hlen (coinReads buf inp).2).2 (next hlen)
        else (false, view) := ⟨_, rfl⟩
  rw [hround]
  by_cases hlen : leDecode (coinReads buf inp).1 ≤ 100000
  · rw [dif_pos hlen, loadScript_snd, loadCoins_fst n _ _ (next hlen) .empty]
    exact (and_iff_right hlen).symm
  · rw [dif_neg hlen]
    exact iff_of_false Bool.false_ne_true (fun h => hlen h.1)

/-- On a failed stream every script length is what the buffer holds. -/
theorem loadCoins_failed (n : Nat) (buf rest : Bytes) (view : CCoinsView) :
    (loadCoins n buf ⟨rest, false⟩ view).1 = true ↔ n = 0 ∨ leDecode buf ≤ 100000 := by
  induction n generalizing view with
  | zero => exact iff_of_true rfl (Or.inl rfl)
  | succ n ih =>
    rw [loadCoins_succ, coinReads_failed]
    simp only [read_failed]
    rw [ih]
    omega

/-- The coin loop on a file that ends among its coins. -/
theorem loadCoins_cut (entries : List (COutPoint × CUTXO)) {buf : Bytes} (hbuf : buf.length = 8) {k : Nat}
    (hk : k < (fileOf (entries.flatMap coinSegments)).length) (view : CCoinsView) :
    (loadCoins entries.length buf ⟨(fileOf (entries.flatMap coinSegments)).take k, true⟩ view).1 = true ↔
      Survives buf (entries.flatMap coinSegments) k := by
  induction entries generalizing buf k view with
  | nil => exact absurd hk (Nat.not_lt_zero k)
  | cons entry rest ih =>
    have hsegments : (entry :: rest).flatMap coinSegments =
        coinHead entry ++ ([entry.2.scriptPubKey.val].map otherSegment ++ rest.flatMap coinSegments) := by
      rw [List.flatMap_cons, coinSegments, List.append_assoc]
    rw [hsegments] at hk ⊢
    rw [List.length_cons, loadCoins_succ, coinReads_eq entry, fileOf_append (coinHead entry)]
    by_cases hhead : k < (fileOf (coinHead entry)).length
    · -- the end is in the head of this coin
      rw [skim_take_of_lt hhead, survives_append_of_lt hhead, survives_iff_of_lt hhead (coinHead_unlimited entry)]
      simp only [read_failed]
      rw [loadCoins_failed]
      exact and_iff_left_of_imp Or.inr
    · have hhead := Nat.le_of_not_lt hhead
      have hdecode : leDecode (leEncode 8 entry.2.scriptPubKey.val.length) = entry.2.scriptPubKey.val.length :=
        leDecode_leEncode_of_lt entry.2.scriptPubKey.property
      rw [skim_take_of_le hhead, survives_append_of_le hhead hk, coinHead_passes_iff, fill_coinHead entry hbuf, hdecode]
      refine and_congr_right fun hlen => ?_
      have hrest : k - (fileOf (coinHead entry)).length <
          (fileOf ([entry.2.scriptPubKey.val].map otherSegment ++ rest.flatMap coinSegments)).length := by
        rw [fileOf_append, List.length_append] at hk
        omega
      have hbytes : fileOf ([entry.2.scriptPubKey.val].map otherSegment) = entry.2.scriptPubKey.val := List.flatMap_singleton ..
      rw [fileOf_append, hbytes]
      by_cases hscript : k - (fileOf (coinHead entry)).length < (fileOf ([entry.2.scriptPubKey.val].map otherSegment)).length
      · -- the end is in the script: the buffer still holds its length
        rw [survives_append_of_lt hscript, survives_others hscript]
        rw [hbytes] at hscript
        rw [read_take_of_lt rfl hscript, loadCoins_failed, hdecode]
        exact iff_of_true (Or.inr hlen) hlen
      · have hscript := Nat.le_of_not_lt hscript
        rw [survives_others_append hscript hrest, hbytes]
        rw [hbytes] at hscript
        rw [read_take_of_le rfl hscript]
        refine ih (length_leEncode 8 _) ?_ _
        rw [fileOf_append, List.length_append, hbytes] at hrest
        omega

end Coins

section Head

/-- Where the hash loop leaves the stream does not depend on its buffer. -/
theorem loadHashes_snd_tip (n : Nat) (tip tip' : Bytes) (inp : InStream UInt8) :
    (loadHashes n tip inp).2 = (loadHashes n tip' inp).2 := by
  induction n generalizing tip tip' inp with
  | zero => rfl
  | succ n ih =>
    rw [loadHashes, loadHashes]
    simp only
    rw [read_snd 32 tip tip']
    exact ih ..

/-- The hash loop leaves the stream where reads of the hashes leave it. -/
theorem loadHashes_snd (hashes : List UInt256) (tip buf : Bytes) (inp : InStream UInt8) :
    (loadHashes hashes.length tip inp).2 = (skim ((hashes.map UInt256.getBytesLE).map otherSegment) buf inp).2 := by
  induction hashes generalizing tip inp with
  | nil => rfl
  | cons hash hashes ih =>
    have hlength : (otherSegment hash.getBytesLE).bytes.length = 32 := hash.length_getBytesLE
    rw [List.map_cons, List.map_cons, skim, hlength, read_snd 32 buf tip]
    exact ih ..

theorem loadHashes_failed (n : Nat) (tip rest : Bytes) : (loadHashes n tip ⟨rest, false⟩).2 = ⟨rest, false⟩ := by
  induction n with
  | zero => rfl
  | succ n ih => exact ih

/-- A number with a limit is one read of eight bytes. -/
theorem skim_limited (n limit : Nat) (buf : Bytes) (inp : InStream UInt8) :
    skim [limitedSegment n limit] buf inp = read 8 buf inp := by
  simp only [skim, limitedSegment, length_leEncode, if_true]

theorem fill_limited (n limit : Nat) {buf : Bytes} (hbuf : buf.length = 8) :
    [limitedSegment n limit].foldl Segment.fill buf = leEncode 8 n :=
  foldl_fill_concat (List.forall_mem_nil _) rfl ((length_leEncode 8 _).trans hbuf.symm)

variable [Memory]

/-- The reads of `LoadChainState` between the magic and the hashes. -/
def stateReads (inp : InStream UInt8) : Bytes × InStream UInt8 :=
  let (buf, inp) := read 8 (Memory.uninit 8) inp
  let inp := (read 32 (Memory.uninit 32) inp).2
  read 8 buf inp

theorem stateReads_eq (height : Int) (tipHash : UInt256) (byHeight : List UInt256) (inp : InStream UInt8) :
    stateReads inp = skim (stateHead height tipHash byHeight) (Memory.uninit 8) inp := by
  simp only [stateReads, stateHead, List.cons_append, List.nil_append, skim, numberSegment, otherSegment, limitedSegment,
    UInt256.length_getBytesLE, length_writeI64, length_leEncode, if_true, Bool.false_eq_true, if_false]
  rw [read_snd 32 (Memory.uninit 32)]

/-- `LoadChainState` goes on behind the counts: what it demands from the stream after the hashes. -/
def CoinsLoad (buf : Bytes) (inp : InStream UInt8) : Prop :=
  leDecode (read 8 buf inp).1 ≤ 1000000000 ∧
    (loadCoins (leDecode (read 8 buf inp).1) (read 8 buf inp).1 (read 8 buf inp).2 .empty).1 = true

/-- What `LoadChainState` demands from the stream after the magic. -/
def StateLoads (inp : InStream UInt8) : Prop :=
  leDecode (stateReads inp).1 ≤ 100000000 ∧
    CoinsLoad (stateReads inp).1 (loadHashes (leDecode (stateReads inp).1) [] (stateReads inp).2).2

theorem coinsLoad_failed (buf rest : Bytes) : CoinsLoad buf ⟨rest, false⟩ ↔ leDecode buf ≤ 100000 := by
  simp only [CoinsLoad, read_failed, loadCoins_failed]
  omega

/-- The count of the coins and the coins, on a file that ends among them. -/
theorem coinsLoad_cut {view : CCoinsView} (hsize : view.utxo.size < 2 ^ 64) {buf : Bytes} (hbuf : buf.length = 8) {k : Nat}
    (hk : k < (fileOf (utxoSegments view)).length) :
    CoinsLoad buf ⟨(fileOf (utxoSegments view)).take k, true⟩ ↔ Survives buf (utxoSegments view) k := by
  rw [utxoSegments] at hk ⊢
  rw [CoinsLoad, ← skim_limited view.utxo.size 1000000000, fileOf_append]
  by_cases hcount : k < (fileOf [limitedSegment view.utxo.size 1000000000]).length
  · rw [skim_take_of_lt hcount, survives_append_of_lt hcount, survives_iff_of_lt hcount (List.forall_mem_nil _)]
    simp only [loadCoins_failed]
    omega
  · have hcount := Nat.le_of_not_lt hcount
    have hdecode : leDecode (leEncode 8 view.utxo.size) = view.utxo.size := leDecode_leEncode_of_lt hsize
    rw [skim_take_of_le hcount, survives_append_of_le hcount hk, List.forall_mem_singleton,
      limitedSegment_passes_iff hsize, fill_limited _ _ hbuf]
    rw [fileOf_append, List.length_append] at hk
    have hcoins := loadCoins_cut view.utxo.toList (length_leEncode 8 view.utxo.size)
      (k := k - (fileOf [limitedSegment view.utxo.size 1000000000]).length) (by omega) .empty
    rw [Std.ExtTreeMap.length_toList] at hcoins
    simp only [hdecode, hcoins]

theorem stateLoads_failed (rest : Bytes) : StateLoads ⟨rest, false⟩ ↔ leDecode (Memory.uninit 8) ≤ 100000 := by
  have hreads : stateReads ⟨rest, false⟩ = (Memory.uninit 8, ⟨rest, false⟩) := rfl
  simp only [StateLoads, hreads, loadHashes_failed, coinsLoad_failed]
  omega

/-- The file after its magic, when it ends anywhere in it. -/
theorem stateLoads_cut {view : CCoinsView} (hsize : view.utxo.size < 2 ^ 64) (height : Int) (tipHash : UInt256)
    {byHeight : List UInt256} (hlength : byHeight.length < 2 ^ 64) {k : Nat}
    (hk : k < (fileOf (chainStateSegments view height tipHash byHeight)).length) :
    StateLoads ⟨(fileOf (chainStateSegments view height tipHash byHeight)).take k, true⟩ ↔
      Survives (Memory.uninit 8) (chainStateSegments view height tipHash byHeight) k := by
  rw [chainStateSegments] at hk ⊢
  rw [StateLoads, stateReads_eq height tipHash byHeight, fileOf_append (stateHead height tipHash byHeight)]
  by_cases hhead : k < (fileOf (stateHead height tipHash byHeight)).length
  · rw [skim_take_of_lt hhead, survives_append_of_lt hhead, survives_iff_of_lt hhead (stateHead_unlimited height tipHash byHeight)]
    simp only [loadHashes_failed, coinsLoad_failed]
    omega
  · have hhead := Nat.le_of_not_lt hhead
    have hdecode : leDecode (leEncode 8 byHeight.length) = byHeight.length := leDecode_leEncode_of_lt hlength
    have hrest : k - (fileOf (stateHead height tipHash byHeight)).length <
        (fileOf ((byHeight.map UInt256.getBytesLE).map otherSegment ++ utxoSegments view)).length := by
      rw [fileOf_append, List.length_append] at hk
      omega
    rw [skim_take_of_le hhead, survives_append_of_le hhead hk, stateHead_passes_iff _ _ hlength,
      fill_stateHead _ _ _ (Memory.length_uninit 8)]
    simp only [hdecode]
    refine and_congr_right fun hcount => ?_
    rw [loadHashes_snd byHeight [] (leEncode 8 byHeight.length), fileOf_append]
    by_cases hhashes : k - (fileOf (stateHead height tipHash byHeight)).length <
        (fileOf ((byHeight.map UInt256.getBytesLE).map otherSegment)).length
    · rw [skim_take_of_lt hhashes, survives_append_of_lt hhashes, survives_others hhashes]
      exact coinsLoad_failed ..
    · have hhashes := Nat.le_of_not_lt hhashes
      rw [skim_take_of_le hhashes, survives_others_append hhashes hrest]
      rw [fileOf_append, List.length_append] at hrest
      exact coinsLoad_cut hsize (length_leEncode 8 _) (by omega)

/-- `LoadChainState` returns `true` exactly on a magic and a state that load. -/
theorem loadChainState_ok_iff {s : CBlockStorage} {content : Bytes} (hfile : s.disk.chainstateDat = some content)
    (view : CCoinsView) (height : Int) (tipHash : UInt256) (byHeight : List UInt256) :
    (s.loadChainState view height tipHash byHeight).ok = true ↔
      (read 4 (Memory.uninit 4) ⟨content, true⟩).1 = chainStateMagic ∧
        StateLoads (read 4 (Memory.uninit 4) ⟨content, true⟩).2 := by
  obtain ⟨tip, hok⟩ : ∃ tip : Bytes, (s.loadChainState view height tipHash byHeight).ok =
      if (read 4 (Memory.uninit 4) ⟨content, true⟩).1 ≠ chainStateMagic then false
      else
        let (buf, inp) := stateReads (read 4 (Memory.uninit 4) ⟨content, true⟩).2
        if leDecode buf > 100000000 then false
        else
          let (buf, inp) := read 8 buf (loadHashes (leDecode buf) tip inp).2
          if leDecode buf > 1000000000 then false else (loadCoins (leDecode buf) buf inp .empty).1 := by
    simp only [CBlockStorage.loadChainState, hfile, apply_ite LoadedState.ok]
    exact ⟨_, rfl⟩
  simp only [hok, loadHashes_snd_tip _ tip [], Bool.if_false_left, Bool.and_eq_true, Bool.not_eq_true',
    decide_eq_false_iff_not, not_not, not_lt, gt_iff_lt, StateLoads, CoinsLoad, ne_eq]

end Head

section Tear

/-- `chainstate.dat` after a crash that left its first `k` bytes. -/
def CBlockStorage.tearChainState (s : CBlockStorage) (k : Nat) : CBlockStorage :=
  { s with disk := { s.disk with chainstateDat := s.disk.chainstateDat.map (List.take k) } }

variable [Memory]

/-- Nothing shows that the file ends after `k` bytes: memory holds the rest of the magic,
    and the loader goes on over the state behind it. -/
def Unnoticed (view : CCoinsView) (height : Int) (tipHash : UInt256) (byHeight : List UInt256) (k : Nat) : Prop :=
  chainStateMagic.take k ++ (Memory.uninit 4).drop k = chainStateMagic ∧
    Survives (Memory.uninit 8) (chainStateSegments view height tipHash byHeight) (k - 4)

/-- The read of the magic when the file ends in it. -/
theorem read_magic_of_lt {k : Nat} (hk : k < 4) (after : Bytes) :
    read 4 (Memory.uninit 4) ⟨(chainStateMagic ++ after).take k, true⟩ =
      (chainStateMagic.take k ++ (Memory.uninit 4).drop k, ⟨[], false⟩) :=
  read_take_of_lt rfl hk ..

theorem read_magic_of_le {k : Nat} (hk : 4 ≤ k) (after : Bytes) :
    read 4 (Memory.uninit 4) ⟨(chainStateMagic ++ after).take k, true⟩ = (chainStateMagic, ⟨after.take (k - 4), true⟩) := by
  rw [read_take_of_le (by rfl) hk, List.drop_of_length_le (Memory.length_uninit 4).le, List.append_nil]

omit [Memory] in
/-- With nothing behind the magic the buffer is as it was. -/
theorem survives_zero (buf : Bytes) (view : CCoinsView) (height : Int) (tipHash : UInt256) (byHeight : List UInt256) :
    Survives buf (chainStateSegments view height tipHash byHeight) 0 ↔ leDecode buf ≤ 100000 := by
  have hempty : ¬ (numberSegment (writeI64 height)).bytes.length ≤ 0 := by
    rw [numberSegment, length_writeI64]
    decide
  rw [Survives, chainStateSegments, stateHead, List.cons_append, List.cons_append, cut, if_neg hempty]
  exact and_iff_right (List.forall_mem_nil _)

/-- A torn `chainstate.dat` is refused exactly when something shows where it ends. -/
theorem loadChainState_torn_iff (s : CBlockStorage) {view : CCoinsView} (hsize : view.utxo.size < 2 ^ 64) (height : Int)
    (tipHash : UInt256) {byHeight : List UInt256} (hlength : byHeight.length < 2 ^ 64) {k : Nat}
    (hk : k < (encodeChainState view height tipHash byHeight).length) (view' : CCoinsView) (height' : Int)
    (tipHash' : UInt256) (byHeight' : List UInt256) :
    (((s.saveChainState view height tipHash byHeight).tearChainState k).loadChainState view' height' tipHash' byHeight').ok =
      false ↔ ¬ Unnoticed view height tipHash byHeight k := by
  rw [encodeChainState_eq, List.length_append] at hk
  rw [← Bool.not_eq_true, loadChainState_ok_iff rfl, encodeChainState_eq, Unnoticed]
  by_cases hmagic : k < 4
  · rw [read_magic_of_lt hmagic, stateLoads_failed, Nat.sub_eq_zero_of_le hmagic.le, survives_zero]
  · have hmagic := Nat.le_of_not_lt hmagic
    have hlengthMagic : chainStateMagic.length = 4 := rfl
    have hwhole : chainStateMagic.take k ++ (Memory.uninit 4).drop k = chainStateMagic := by
      rw [List.take_of_length_le (by omega), List.drop_of_length_le (by rw [Memory.length_uninit]; omega), List.append_nil]
    rw [read_magic_of_le hmagic, stateLoads_cut hsize height tipHash hlength (by omega), hwhole]

end Tear

section

attribute [local instance] zeroMemory

/-- A view with one coin. -/
def singleCoin : CCoinsView :=
  CCoinsView.empty.addCoin ⟨0, 0⟩ { value := 5000000000, scriptPubKey := opTrue, height := 1, isCoinbase := true }

/-- A file that ends in its magic. -/
theorem loadChainState_torn_magic : singleCoin.utxo.size < 2 ^ 64 ∧ [(0 : UInt256)].length < 2 ^ 64 ∧
    3 < (encodeChainState singleCoin 1 0 [0]).length ∧
    (((({} : CBlockStorage).saveChainState singleCoin 1 0 [0]).tearChainState 3).loadChainState .empty 0 0 []).ok =
      false := by
  have hsize : singleCoin.utxo.size < 2 ^ 64 := by decide
  have hlength : [(0 : UInt256)].length < 2 ^ 64 := by decide
  have hk : 3 < (encodeChainState singleCoin 1 0 [0]).length := by decide +kernel
  refine ⟨hsize, hlength, hk, ?_⟩
  apply (loadChainState_torn_iff {} hsize 1 0 hlength hk .empty 0 0 []).mpr
  rintro ⟨hmagic, -⟩
  exact absurd hmagic (by decide)

/-- Without the last byte, the script of the coin, the file is loaded with another script. -/
theorem loadChainState_accepts_torn : 153 < (encodeChainState singleCoin 1 0 [0]).length ∧
    ¬ (((({} : CBlockStorage).saveChainState singleCoin 1 0 [0]).tearChainState 153).loadChainState .empty 0 0 []).ok =
      false ∧
    ((((({} : CBlockStorage).saveChainState singleCoin 1 0 [0]).tearChainState 153).loadChainState .empty 0 0
      []).view.getCoin ⟨0, 0⟩).map (fun coin => coin.scriptPubKey.val) = some [0] := by
  decide +kernel

end

end cdx
