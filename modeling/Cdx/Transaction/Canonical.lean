import Cdx.Transaction.RoundTrip

namespace cdx

open codec

/-- A compact size, taken only in its shortest form. -/
def readShortSize : Reader Nat := fun c =>
  match readVarInt.run c with
  | none => none
  | some (n, c') => if c'.pos - c.pos = (writeVarInt n).length then some (n, c') else none

/-- A count within the limit of the decoder, taken only in its shortest form. -/
def readShortCount : Reader Nat := do
  let n ← readShortSize
  if n > 100000 then failure
  pure n

def readShortTransaction : Reader CTransaction := readTransactionWith readShortCount readShortSize

/-- One round of the transaction loop over shortest forms. -/
def readShortBlockTx : Reader CTransaction := fun d =>
  (readShortTransaction.run ⟨d.buf.drop d.pos, 0⟩).map fun r =>
    (r.1, ⟨d.buf, d.pos + (serializeTransaction r.1).length⟩)

/-- Every compact size that `DeserializeTransaction` reads is in its shortest form. -/
def ShortSizes (data : Bytes) : Prop := (readShortTransaction.run ⟨data, 0⟩).isSome

/-- Every compact size that `DeserializeBlock` reads is in its shortest form. -/
def ShortBlockSizes (data : Bytes) : Prop :=
  ((readShortCount >>= many readShortBlockTx).run ⟨data, 80⟩).isSome

instance (data : Bytes) : Decidable (ShortSizes data) := inferInstanceAs (Decidable (_ = true))

instance (data : Bytes) : Decidable (ShortBlockSizes data) := inferInstanceAs (Decidable (_ = true))

/-- The body of `DeserializeBlock` after the header. -/
def readBlockBody : Reader (List CTransaction) := readCount >>= many readBlockTx

theorem deserializeBlock_eq_some {data : Bytes} {blk : CBlock} (hread : deserializeBlock data = some blk) :
    deserializeBlockHeader data = some blk.header ∧ ∃ c, readBlockBody.run ⟨data, 80⟩ = some (blk.vtx, c) := by
  unfold deserializeBlock at hread
  obtain ⟨header, hheader, hbody⟩ := Option.bind_eq_some_iff.mp hread
  obtain ⟨⟨vtx, c⟩, hrun, hpure⟩ := Option.bind_eq_some_iff.mp hbody
  cases hpure
  exact ⟨hheader, c, hrun⟩

theorem readShortSize_eq_some {c : Cursor UInt8} {r : Nat × Cursor UInt8} (hrun : readShortSize.run c = some r) :
    readVarInt.run c = some r ∧ r.2.pos - c.pos = (writeVarInt r.1).length := by
  rw [StateT.run, readShortSize] at hrun
  split at hrun
  · cases hrun
  next n c' hread =>
    split at hrun
    next hwidth =>
      cases hrun
      exact ⟨hread, hwidth⟩
    · cases hrun

theorem readShortSize_refines : Refines readShortSize readVarInt := fun _ _ hrun => (readShortSize_eq_some hrun).1

/-- The marker that announces a width. -/
def sizeMarker (width : Nat) : UInt8 := if width = 2 then 0xfd else if width = 4 then 0xfe else 0xff

theorem writeVarInt_of_length {n width : Nat} (hwidth : width = 2 ∨ width = 4 ∨ width = 8)
    (hlength : (writeVarInt n).length = width + 1) : writeVarInt n = sizeMarker width :: leEncode width n := by
  unfold writeVarInt at hlength ⊢
  split at hlength
  · simp only [List.length_singleton] at hlength
    omega
  next hsmall =>
    rw [if_neg hsmall]
    split at hlength
    next hmiddle =>
      rw [List.length_cons, length_leEncode] at hlength
      obtain rfl : width = 2 := by omega
      rw [if_pos hmiddle]
      rfl
    next hmiddle =>
      rw [if_neg hmiddle]
      split at hlength
      next hlarge =>
        rw [List.length_cons, length_leEncode] at hlength
        obtain rfl : width = 4 := by omega
        rw [if_pos hlarge]
        rfl
      next hlarge =>
        rw [List.length_cons, length_leEncode] at hlength
        obtain rfl : width = 8 := by omega
        rw [if_neg hlarge]
        rfl

/-- A size behind a marker that has the width the writer would give it. -/
theorem took_marked {c mid c' : Cursor UInt8} {n width : Nat} (hwidth : width = 2 ∨ width = 4 ∨ width = 8)
    (hmarker : Took c mid [sizeMarker width]) (hread : (leDecode <$> readBytes width).run mid = some (n, c'))
    (hshort : c'.pos - c.pos = (writeVarInt n).length) : Took c c' (writeVarInt n) := by
  obtain ⟨bytes, htake, rfl⟩ := run_map_eq_some hread
  obtain ⟨hlength, htook⟩ := take_eq_some htake
  have hboth := hmarker.trans htook
  have hpos := hboth.pos
  rw [List.length_append, List.length_singleton, hlength] at hpos
  rw [writeVarInt_of_length hwidth (by omega), ← hlength, leEncode_leDecode, hlength]
  exact hboth

/-- A size of the width that the writer gives its value is spelled as the writer spells it. -/
theorem exact_shortSize : Exact readShortSize writeVarInt := by
  intro c n c' hrun
  obtain ⟨hread, hshort⟩ := readShortSize_eq_some hrun
  obtain ⟨first, mid, hfirst, htail⟩ := run_bind_eq_some hread
  obtain ⟨head, htake, hhead⟩ := run_map_eq_some hfirst
  obtain ⟨hone, htook⟩ := take_eq_some htake
  obtain ⟨b, rfl⟩ := List.length_eq_one_iff.mp hone
  obtain rfl : b = first := hhead
  split at htail
  next hsmall =>
    cases htail
    have hlt : b.toNat < 0xfd := UInt8.lt_iff_toNat_lt.mp hsmall
    rw [writeVarInt, if_pos hlt, UInt8.ofNat_toNat]
    exact htook
  · split at htail
    next hmarker =>
      subst hmarker
      exact took_marked (Or.inl rfl) htook htail hshort
    · split at htail
      next hmarker =>
        subst hmarker
        exact took_marked (Or.inr (Or.inl rfl)) htook htail hshort
      next hsmall hmiddle hlarge =>
        have hmarker : b = 0xff := by
          have hlt := b.toNat_lt
          rw [UInt8.lt_iff_toNat_lt] at hsmall
          rw [← UInt8.toNat_inj] at hmiddle hlarge ⊢
          simp only [UInt8.reduceToNat] at hsmall hmiddle hlarge ⊢
          omega
        subst hmarker
        exact took_marked (Or.inr (Or.inr rfl)) htook htail hshort

theorem readCount_eq_some {c c' : Cursor UInt8} {n : Nat} (hrun : readCount.run c = some (n, c')) :
    n ≤ 100000 ∧ readVarInt.run c = some (n, c') := run_atMost_eq_some hrun

theorem exact_shortCount : Exact readShortCount writeVarInt := by
  intro c n c' hrun
  exact exact_shortSize _ _ _ (run_atMost_eq_some hrun).2

theorem exact_u32 : Exact readU32 writeU32 := by
  intro c v c' hrun
  obtain ⟨bytes, htake, rfl⟩ := run_map_eq_some hrun
  obtain ⟨hlength, htook⟩ := take_eq_some htake
  have hlt := leDecode_lt bytes
  rw [hlength] at hlt
  have hvalue : (UInt32.ofNat (leDecode bytes)).toNat = leDecode bytes := by
    rw [UInt32.toNat_ofNat']
    exact Nat.mod_eq_of_lt hlt
  rw [writeU32, hvalue, ← hlength, leEncode_leDecode]
  exact htook

theorem exact_u64 : Exact readU64 writeU64 := by
  intro c v c' hrun
  obtain ⟨bytes, htake, rfl⟩ := run_map_eq_some hrun
  obtain ⟨hlength, htook⟩ := take_eq_some htake
  rw [writeU64, UInt256.leEncode_word hlength]
  exact htook

theorem exact_uint256 : Exact readUint256 writeUint256 := by
  intro c h c' hrun
  obtain ⟨bytes, htake, rfl⟩ := run_map_eq_some hrun
  obtain ⟨hlength, htook⟩ := take_eq_some htake
  rw [writeUint256, UInt256.getBytesLE_setBytesLE hlength]
  exact htook

theorem exact_shortVarStr : Exact (readVarStrWith readShortSize) writeVarStr := by
  intro c script c' hrun
  obtain ⟨n, mid, hsize, htail⟩ := run_bind_eq_some hrun
  obtain ⟨d, same, hget, htail⟩ := run_bind_eq_some htail
  cases hget
  by_cases hroom : n > mid.remaining
  · simp only [if_pos hroom] at htail
    cases htail
  · simp only [if_neg hroom] at htail
    obtain ⟨bytes, last, htake, htail⟩ := run_bind_eq_some htail
    obtain ⟨hlength, htook⟩ := take_eq_some htake
    split at htail
    next hfits =>
      cases htail
      have hboth := (exact_shortSize c n mid hsize).trans htook
      rw [← hlength] at hboth
      exact hboth
    · cases htail

theorem exact_shortTxIn : Exact (readTxInWith readShortSize) serializeTxIn := by
  intro c i c' hrun
  obtain ⟨hash, c1, hhash, htail⟩ := run_bind_eq_some hrun
  obtain ⟨n, c2, hn, htail⟩ := run_bind_eq_some htail
  obtain ⟨scriptSig, c3, hscript, htail⟩ := run_bind_eq_some htail
  obtain ⟨sequence, c4, hsequence, hpure⟩ := run_bind_eq_some htail
  cases hpure
  exact (exact_uint256 _ _ _ hhash).trans ((exact_u32 _ _ _ hn).trans
    ((exact_shortVarStr _ _ _ hscript).trans (exact_u32 _ _ _ hsequence)))

theorem exact_shortTxOut : Exact (readTxOutWith readShortSize) serializeTxOut := by
  intro c out c' hrun
  obtain ⟨v, c1, hv, htail⟩ := run_bind_eq_some hrun
  obtain ⟨scriptPubKey, c2, hscript, hpure⟩ := run_bind_eq_some htail
  cases hpure
  have hvalue := exact_u64 _ _ _ hv
  rw [← UInt64.toUInt64_toInt64 v] at hvalue
  exact hvalue.trans (exact_shortVarStr _ _ _ hscript)

/-- A transaction read over shortest forms is spelled as the writer spells it. -/
theorem exact_shortTransaction : Exact readShortTransaction serializeTransaction := by
  intro c tx c' hrun
  obtain ⟨ver, c1, hver, htail⟩ := run_bind_eq_some hrun
  obtain ⟨nvin, c2, hnvin, htail⟩ := run_bind_eq_some htail
  obtain ⟨vin, c3, hvin, htail⟩ := run_bind_eq_some htail
  obtain ⟨nvout, c4, hnvout, htail⟩ := run_bind_eq_some htail
  obtain ⟨vout, c5, hvout, htail⟩ := run_bind_eq_some htail
  obtain ⟨lockTime, c6, hlock, hpure⟩ := run_bind_eq_some htail
  cases hpure
  have hvinCount := exact_shortCount _ _ _ hnvin
  have hvoutCount := exact_shortCount _ _ _ hnvout
  rw [← length_many hvin] at hvinCount
  rw [← length_many hvout] at hvoutCount
  have hversion := exact_u32 _ _ _ hver
  rw [← UInt32.toUInt32_toInt32 ver] at hversion
  exact hversion.trans (hvinCount.trans ((exact_many exact_shortTxIn _ _ _ _ hvin).trans (hvoutCount.trans
    ((exact_many exact_shortTxOut _ _ _ _ hvout).trans (exact_u32 _ _ _ hlock)))))

theorem decodable_of_readTransaction {c c' : Cursor UInt8} {tx : CTransaction}
    (hrun : readTransaction.run c = some (tx, c')) : tx.Decodable := by
  obtain ⟨ver, c1, hver, htail⟩ := run_bind_eq_some hrun
  obtain ⟨nvin, c2, hnvin, htail⟩ := run_bind_eq_some htail
  obtain ⟨vin, c3, hvin, htail⟩ := run_bind_eq_some htail
  obtain ⟨nvout, c4, hnvout, htail⟩ := run_bind_eq_some htail
  obtain ⟨vout, c5, hvout, htail⟩ := run_bind_eq_some htail
  obtain ⟨lockTime, c6, hlock, hpure⟩ := run_bind_eq_some htail
  cases hpure
  constructor
  · rw [length_many hvin]
    exact (readCount_eq_some hnvin).1
  · rw [length_many hvout]
    exact (readCount_eq_some hnvout).1

theorem readShortCount_refines : Refines readShortCount readCount :=
  readShortSize_refines.bind fun _ => Refines.refl _

theorem readVarStrWith_refines : Refines (readVarStrWith readShortSize) (readVarStrWith readVarInt) :=
  readShortSize_refines.bind fun _ => Refines.refl _

theorem readShortTransaction_refines : Refines readShortTransaction readTransaction := by
  have htxIn : Refines (readTxInWith readShortSize) (readTxInWith readVarInt) :=
    (Refines.refl _).bind fun _ => (Refines.refl _).bind fun _ => readVarStrWith_refines.bind fun _ => Refines.refl _
  have htxOut : Refines (readTxOutWith readShortSize) (readTxOutWith readVarInt) :=
    (Refines.refl _).bind fun _ => readVarStrWith_refines.bind fun _ => Refines.refl _
  rw [readTransaction_eq]
  exact (Refines.refl _).bind fun _ => readShortCount_refines.bind fun n => (htxIn.many n).bind fun _ =>
    readShortCount_refines.bind fun n => (htxOut.many n).bind fun _ => Refines.refl _

theorem readShortBlockTx_refines : Refines readShortBlockTx readBlockTx := by
  intro c r hrun
  obtain ⟨⟨tx, last⟩, htx, hr⟩ := Option.map_eq_some_iff.mp hrun
  have hread := readShortTransaction_refines _ _ htx
  rw [StateT.run, readBlockTx, deserializeTransaction, hread, Option.map_some, Option.map_some, ← hr]

theorem reads_shortSize {n : Nat} (hn : n < 2 ^ 64) : Reads readShortSize (writeVarInt n) n := by
  intro before after
  have hread := reads_varInt hn before after
  rw [StateT.run, readShortSize, hread]
  simp only [Nat.add_sub_cancel_left, if_true]

theorem reads_shortCount {n : Nat} (hn : n ≤ 100000) : Reads readShortCount (writeVarInt n) n :=
  (reads_shortSize (lt_of_le_of_lt hn (by norm_num))).atMost hn

theorem reads_shortTransaction {tx : CTransaction} (htx : tx.Decodable) :
    Reads readShortTransaction (serializeTransaction tx) tx :=
  reads_transactionWith (fun script => reads_shortSize script.property) (reads_shortCount htx.1)
    (reads_shortCount htx.2)

theorem reads_shortBlockTx {tx : CTransaction} (htx : tx.Decodable) :
    Reads readShortBlockTx (serializeTransaction tx) tx := by
  intro before after
  simp only [StateT.run, readShortBlockTx, List.drop_left]
  have hread := (reads_shortTransaction htx).run_start after
  rw [StateT.run] at hread
  rw [hread, Option.map_some]

/-- Each of the next rounds of the block loop advances by what its decoding has read. -/
def AdvancesExactly (data : Bytes) : Nat → Nat → Prop
  | 0, _ => True
  | rounds + 1, pos => ∀ tx c, readTransaction.run ⟨data.drop pos, 0⟩ = some (tx, c) →
      c.pos = (serializeTransaction tx).length ∧ AdvancesExactly data rounds (pos + (serializeTransaction tx).length)

theorem exact_shortBlockTx : Exact readShortBlockTx serializeTransaction := by
  intro c tx c' hrun
  obtain ⟨⟨tx', last⟩, htx, hr⟩ := Option.map_eq_some_iff.mp hrun
  cases hr
  have htook := exact_shortTransaction _ _ _ htx
  refine ⟨rfl, rfl, ?_⟩
  have hrest := htook.rest
  have hpos := htook.pos
  simp only [List.drop_zero, Nat.zero_add] at hrest hpos
  rw [hpos, List.drop_drop] at hrest
  exact hrest

theorem advancesExactly_of_short {data : Bytes} {rounds pos : Nat} {vtx : List CTransaction} {c' : Cursor UInt8}
    (hrun : (many readShortBlockTx rounds).run ⟨data, pos⟩ = some (vtx, c')) : AdvancesExactly data rounds pos := by
  induction rounds generalizing pos vtx with
  | zero => trivial
  | succ rounds ih =>
    obtain ⟨tx, mid, rest, rfl, htx, hrest⟩ := many_succ_eq_some hrun
    obtain ⟨⟨tx', inner⟩, hshort, hr⟩ := Option.map_eq_some_iff.mp htx
    cases hr
    intro tx c hread
    have hsame := readShortTransaction_refines _ _ hshort
    rw [hread] at hsame
    cases hsame
    refine ⟨?_, ih hrest⟩
    rw [(exact_shortTransaction _ _ _ hshort).pos]
    exact Nat.zero_add _

/-- Re-serializing a decoded transaction gives back what the decoder consumed exactly
    when every compact size it read was in its shortest form. -/
theorem serializeTransaction_eq_take_iff {data : Bytes} {tx : CTransaction} {c : Cursor UInt8}
    (hrun : readTransaction.run ⟨data, 0⟩ = some (tx, c)) :
    serializeTransaction tx = data.take c.pos ↔ ShortSizes data := by
  constructor
  · intro hsame
    have hread := (reads_shortTransaction (decodable_of_readTransaction hrun)).run_start (data.drop c.pos)
    rw [hsame, List.take_append_drop] at hread
    rw [ShortSizes, hread]
    rfl
  · intro hshort
    obtain ⟨⟨tx', c'⟩, hstrict⟩ := Option.isSome_iff_exists.mp hshort
    have hsame := readShortTransaction_refines _ _ hstrict
    rw [hrun] at hsame
    cases hsame
    exact (exact_shortTransaction _ _ _ hstrict).take_eq

theorem decodable_of_deserializeBlock {data : Bytes} {blk : CBlock} (hread : deserializeBlock data = some blk) :
    blk.Decodable := by
  obtain ⟨-, c, hbody⟩ := deserializeBlock_eq_some hread
  obtain ⟨n, first, hcount, hmany⟩ := run_bind_eq_some hbody
  constructor
  · rw [length_many hmany]
    exact (readCount_eq_some hcount).1
  · have hround : ∀ (d : Cursor UInt8) (r : CTransaction × Cursor UInt8), readBlockTx.run d = some r → r.1.Decodable := by
      intro d r hrun
      obtain ⟨tx, htx, hr⟩ := Option.map_eq_some_iff.mp hrun
      obtain ⟨⟨tx', c'⟩, hinner, hfst⟩ := Option.map_eq_some_iff.mp htx
      cases hfst
      cases hr
      exact decodable_of_readTransaction hinner
    exact forall_many hround hmany

theorem exact_blockHeader : Exact readBlockHeader serializeBlockHeader := by
  intro c hdr c' hrun
  obtain ⟨ver, c1, hver, htail⟩ := run_bind_eq_some hrun
  obtain ⟨prevBlockHash, c2, hprev, htail⟩ := run_bind_eq_some htail
  obtain ⟨merkleRoot, c3, hmerkle, htail⟩ := run_bind_eq_some htail
  obtain ⟨timestamp, c4, htime, htail⟩ := run_bind_eq_some htail
  obtain ⟨bits, c5, hbits, htail⟩ := run_bind_eq_some htail
  obtain ⟨nonce, c6, hnonce, hpure⟩ := run_bind_eq_some htail
  cases hpure
  have hversion := exact_u32 _ _ _ hver
  rw [← UInt32.toUInt32_toInt32 ver] at hversion
  exact hversion.trans ((exact_uint256 _ _ _ hprev).trans ((exact_uint256 _ _ _ hmerkle).trans
    ((exact_u32 _ _ _ htime).trans ((exact_u32 _ _ _ hbits).trans (exact_u32 _ _ _ hnonce)))))

/-- The header of an accepted block is spelled by the first eighty bytes. -/
theorem took_header {data : Bytes} {hdr : CBlockHeader} (hread : deserializeBlockHeader data = some hdr) :
    Took ⟨data, 0⟩ ⟨data, 80⟩ (serializeBlockHeader hdr) := by
  obtain ⟨⟨hdr', c⟩, hrun, hfst⟩ := Option.map_eq_some_iff.mp hread
  cases hfst
  have htook := exact_blockHeader _ _ _ hrun
  have hpos := htook.pos
  have hbuf := htook.buf
  rw [length_serializeBlockHeader] at hpos
  obtain ⟨buf, pos⟩ := c
  cases hbuf
  cases hpos
  exact htook

/-- Re-serializing a decoded block gives back the bytes under the cursor, and the cursor
    follows the decoding of every transaction, exactly when every compact size that was
    read was in its shortest form. -/
theorem serializeBlock_eq_take_iff {data : Bytes} {blk : CBlock} (hread : deserializeBlock data = some blk)
    {n : Nat} {first last : Cursor UInt8} (hcount : readCount.run ⟨data, 80⟩ = some (n, first))
    (hbody : readBlockBody.run ⟨data, 80⟩ = some (blk.vtx, last)) :
    (serializeBlock blk = data.take last.pos ∧ AdvancesExactly data n first.pos) ↔ ShortBlockSizes data := by
  constructor
  · intro ⟨hsame, _⟩
    obtain ⟨hlength, htxs⟩ := decodable_of_deserializeBlock hread
    have hreads := (reads_shortCount hlength).bind (reads_many fun tx htx => reads_shortBlockTx (htxs tx htx))
      (serializeBlockHeader blk.header) (data.drop last.pos)
    have hdata : serializeBlock blk ++ data.drop last.pos = data := by rw [hsame, List.take_append_drop]
    rw [serializeBlock, List.append_assoc] at hdata
    rw [hdata, length_serializeBlockHeader] at hreads
    rw [ShortBlockSizes, hreads]
    rfl
  · intro hshort
    obtain ⟨⟨vtx, c⟩, hstrict⟩ := Option.isSome_iff_exists.mp hshort
    have hsame := (readShortCount_refines.bind fun n => readShortBlockTx_refines.many n) _ _ hstrict
    rw [readBlockBody] at hbody
    rw [hbody] at hsame
    cases hsame
    obtain ⟨m, mid, hshortCount, hmany⟩ := run_bind_eq_some hstrict
    have hcount' := readShortCount_refines _ _ hshortCount
    rw [hcount] at hcount'
    cases hcount'
    have hsize := exact_shortCount _ _ _ hshortCount
    have htook := (took_header (deserializeBlock_eq_some hread).1).trans
      (hsize.trans (exact_many exact_shortBlockTx _ _ _ _ hmany))
    rw [← length_many hmany] at htook
    refine ⟨htook.take_eq, ?_⟩
    obtain ⟨buf, pos⟩ := first
    cases hsize.buf
    exact advancesExactly_of_short hmany

/-- An accepted transaction is spelled by the bytes that its decoding consumed. -/
def TransactionReserializes (data : Bytes) : Prop :=
  ∀ tx c, readTransaction.run ⟨data, 0⟩ = some (tx, c) → serializeTransaction tx = data.take c.pos

/-- An accepted block is spelled by the bytes up to the cursor at its end, and for each of
    its transactions the cursor has advanced by what the decoding read. -/
def BlockReserializes (data : Bytes) : Prop :=
  ∀ blk n first last, deserializeBlock data = some blk → readCount.run ⟨data, 80⟩ = some (n, first) →
    readBlockBody.run ⟨data, 80⟩ = some (blk.vtx, last) →
      serializeBlock blk = data.take last.pos ∧ AdvancesExactly data n first.pos

/-- The encoding is canonical on exactly the inputs whose compact sizes are all in their
    shortest form, among those that the decoders accept. -/
theorem reserializes_iff_shortSizes (data : Bytes) :
    (TransactionReserializes data ↔ ((deserializeTransaction data).isSome → ShortSizes data)) ∧
      (BlockReserializes data ↔ ((deserializeBlock data).isSome → ShortBlockSizes data)) := by
  constructor
  · constructor
    · intro hexact haccepted
      obtain ⟨tx, htx⟩ := Option.isSome_iff_exists.mp haccepted
      obtain ⟨⟨tx', c⟩, hrun, -⟩ := Option.map_eq_some_iff.mp htx
      exact (serializeTransaction_eq_take_iff hrun).mp (hexact tx' c hrun)
    · intro hshort tx c hrun
      apply (serializeTransaction_eq_take_iff hrun).mpr (hshort _)
      rw [deserializeTransaction, hrun]
      rfl
  · constructor
    · intro hexact haccepted
      obtain ⟨blk, hread⟩ := Option.isSome_iff_exists.mp haccepted
      obtain ⟨-, last, hbody⟩ := deserializeBlock_eq_some hread
      obtain ⟨n, first, hcount, -⟩ := run_bind_eq_some hbody
      exact (serializeBlock_eq_take_iff hread hcount hbody).mp (hexact blk n first last hread hcount hbody)
    · intro hshort blk n first last hread hcount hbody
      apply (serializeBlock_eq_take_iff hread hcount hbody).mpr (hshort _)
      rw [hread]
      rfl

/-- A transaction without inputs and outputs whose input count takes three bytes. -/
def longCount : Bytes := [1, 0, 0, 0, 0xfd, 0, 0, 0, 0, 0, 0, 0]

/-- The decoder consumes twelve bytes of it and the encoding has ten, so the loop over a
    block would resume inside the transaction. -/
theorem reserializes_fails_longCount : ¬ TransactionReserializes longCount ∧
    ¬ BlockReserializes (List.replicate 80 0 ++ 1 :: longCount) := by
  constructor
  · intro hexact
    have hsame := hexact { vin := [], vout := [] } ⟨longCount, 12⟩ (by decide +kernel)
    exact absurd hsame (by decide +kernel)
  · intro hexact
    obtain ⟨-, hadvances⟩ := hexact
      { header := { version := 0, prevBlockHash := 0, merkleRoot := 0, timestamp := 0, bits := 0, nonce := 0 }
        vtx := [{ vin := [], vout := [] }] } 1 ⟨List.replicate 80 0 ++ 1 :: longCount, 81⟩
      ⟨List.replicate 80 0 ++ 1 :: longCount, 91⟩ (by decide +kernel) (by decide +kernel) (by decide +kernel)
    have hround := hadvances { vin := [], vout := [] } ⟨longCount, 12⟩ (by decide +kernel)
    exact absurd hround.1 (by decide +kernel)

end cdx
