import Cdx.Lib.Walk
import Cdx.P2p.Payload
import Cdx.Transaction.Canonical
import Cdx.Transaction.Size

namespace cdx

open codec walk

/-! The decoders once more, as the decoder objects of the source run: with the length they are told, a
cursor that is a machine word, and a log of every access to the buffer. -/

/-- The number of values of a `size_t`. -/
def SIZE_WORDS : Nat := 2 ^ 64

abbrev Walker (α : Type) := Walk UInt8 α

section Walkers

def walkBytes (n : Nat) : Walker Bytes := walk.take SIZE_WORDS n

def walkU8 : Walker UInt8 := (fun b => b.headD 0) <$> walkBytes 1

def walkU32 : Walker UInt32 := (fun b => UInt32.ofNat (leDecode b)) <$> walkBytes 4

def walkU64 : Walker UInt64 := (fun b => UInt64.ofNat (leDecode b)) <$> walkBytes 8

def walkVarInt : Walker Nat := do
  let first ← (fun b => b.headD 0) <$> walkBytes 1
  if first < 0xfd then pure first.toNat
  else if first = 0xfd then leDecode <$> walkBytes 2
  else if first = 0xfe then leDecode <$> walkBytes 4
  else leDecode <$> walkBytes 8

def walkVarStr : Walker Script := do
  let n ← walkVarInt
  let bytes ← takeLeft SIZE_WORDS n
  if h : bytes.length < 2 ^ 64 then pure ⟨bytes, h⟩ else failure

def walkUint256 : Walker UInt256 := UInt256.setBytesLE <$> walkBytes 32

def walkArray (n : Nat) : Walker { bytes : Bytes // bytes.length = n } := do
  let bytes ← walkBytes n
  if h : bytes.length = n then pure ⟨bytes, h⟩ else failure

def walkBoundedCount (limit : Nat) : Walker Nat := do
  let n ← walkVarInt
  if n > limit then failure else pure n

def walkTxIn : Walker CTxIn := do
  let hash ← walkUint256
  let n ← walkU32
  let scriptSig ← walkVarStr
  let sequence ← walkU32
  pure { prevout := ⟨hash, n⟩, scriptSig, sequence }

def walkTxOut : Walker CTxOut := do
  let v ← walkU64
  let scriptPubKey ← walkVarStr
  pure { value := v.toInt64, scriptPubKey }

/-- `DeserializeTransaction`. -/
def walkTransaction : Walker CTransaction := do
  let ver ← walkU32
  let nvin ← walkBoundedCount 100000
  let vin ← walk.many walkTxIn nvin
  let nvout ← walkBoundedCount 100000
  let vout ← walk.many walkTxOut nvout
  let lockTime ← walkU32
  pure { version := ver.toInt32, vin, vout, lockTime }

def walkBlockHeader : Walker CBlockHeader := do
  let ver ← walkU32
  let prevBlockHash ← walkUint256
  let merkleRoot ← walkUint256
  let timestamp ← walkU32
  let bits ← walkU32
  let nonce ← walkU32
  pure { version := ver.toInt32, prevBlockHash, merkleRoot, timestamp, bits, nonce }

/-- `DeserializeBlock`: the cursor is set behind the header, and behind each transaction by the size of
    its own encoding. -/
def walkBlock : Walker CBlock := do
  let header ← ahead SIZE_WORDS walkBlockHeader fun _ => 80
  let ntx ← walkBoundedCount 100000
  let vtx ← walk.many (ahead SIZE_WORDS walkTransaction fun tx => (serializeTransaction tx).length) ntx
  pure { header, vtx }

/-- `DeserializeVersion`. -/
def walkVersion : Walker CVersionMessage := do
  let ver ← walkU32
  let svc ← walkU64
  let ts ← walkU64
  let addrYou ← walkArray 26
  let addrMe ← walkArray 26
  let nonce ← walkU64
  let ua ← walkVarStr
  let sh ← walkU32
  let relay ← walkU8
  pure { version := ver.toInt32, services := svc.toInt64, timestamp := ts.toInt64, addrMe, addrYou, nonce,
         userAgent := ua, startHeight := sh.toInt32, relay := relay ≠ 0 }

def walkInvItem : Walker CInv := do
  let type ← walkU32
  let hash ← walkUint256
  pure ⟨⟨type⟩, hash⟩

/-- `DeserializeInv`. -/
def walkInv : Walker (List CInv) := do
  let n ← walkBoundedCount MAX_INV_PER_MESSAGE
  walk.many walkInvItem n

/-- `ParseGetHeadersPayload`. -/
def walkGetHeaders : Walker (List UInt256 × UInt256) := do
  let n ← walkBoundedCount 1000
  let locator ← walk.many walkUint256 n
  let hashStop ← walkUint256
  pure (locator, hashStop)

def walkHeadersItem : Walker CBlockHeader := do
  let hdr ← ahead SIZE_WORDS walkBlockHeader fun _ => 80
  let _ ← walkU8
  pure hdr

/-- `ParseHeadersPayload`. -/
def walkHeaders : Walker (List CBlockHeader) := do
  let n ← walkBoundedCount 2000
  walk.many walkHeadersItem n

end Walkers

section Consumption

theorem consumes_varInt : Consumes readVarInt varIntSize := by
  intro c n c' hrun
  obtain ⟨first, mid, hfirst, htail⟩ := run_bind_eq_some hrun
  obtain ⟨bytes, hbytes, hhead⟩ := run_map_eq_some hfirst
  obtain ⟨hlength, htook⟩ := take_eq_some hbytes
  have hmid := htook.pos
  have hwide : ∀ width, (leDecode <$> readBytes width).run mid = some (n, c') → n < 256 ^ width ∧ c'.pos = mid.pos + width := by
    intro width hwidth
    obtain ⟨rest, hrest, hvalue⟩ := run_map_eq_some hwidth
    obtain ⟨hrestLength, hrestTook⟩ := take_eq_some hrest
    have hlt := leDecode_lt rest
    rw [hvalue, hrestLength] at hlt
    exact ⟨hlt, by rw [hrestTook.pos, hrestLength]⟩
  rw [varIntSize]
  split at htail
  next hsmall =>
    cases htail
    have hvalue : first.toNat < 0xfd := hsmall
    rw [if_pos hvalue]
    omega
  · split at htail
    · obtain ⟨hlt, hpos⟩ := hwide 2 htail
      split_ifs <;> omega
    · split at htail
      · obtain ⟨hlt, hpos⟩ := hwide 4 htail
        split_ifs <;> omega
      · obtain ⟨hlt, hpos⟩ := hwide 8 htail
        split_ifs <;> omega

theorem consumes_count : Consumes readCount varIntSize := by
  intro c n c' hrun
  exact consumes_varInt c n c' (run_atMost_eq_some hrun).2

theorem consumes_varStr : Consumes readVarStr scriptSize := by
  intro c script c' hrun
  obtain ⟨n, mid, hn, htail⟩ := run_bind_eq_some hrun
  obtain ⟨d, mid', hget, htail⟩ := run_bind_eq_some htail
  cases hget
  have hpos := consumes_varInt c n mid hn
  split at htail
  · cases htail
  · obtain ⟨bytes, last, hbytes, htail⟩ := run_bind_eq_some htail
    obtain ⟨hlength, htook⟩ := take_eq_some hbytes
    split at htail
    · cases htail
      have hlast := htook.pos
      simp only [scriptSize, hlength]
      omega
    · cases htail

theorem consumes_txIn : Consumes readTxIn fun i => i.size := by
  intro c i c' hrun
  obtain ⟨hash, c₁, hhash, hrun⟩ := run_bind_eq_some hrun
  obtain ⟨n, c₂, hn, hrun⟩ := run_bind_eq_some hrun
  obtain ⟨script, c₃, hscript, hrun⟩ := run_bind_eq_some hrun
  obtain ⟨sequence, c₄, hsequence, hrun⟩ := run_bind_eq_some hrun
  cases hrun
  have h₁ := consumes_of_exact exact_uint256 c hash c₁ hhash
  have h₂ := consumes_of_exact exact_u32 c₁ n c₂ hn
  have h₃ := consumes_varStr c₂ script c₃ hscript
  have h₄ := consumes_of_exact exact_u32 c₃ sequence c' hsequence
  have hhashLength : (writeUint256 hash).length = 32 := by simp [writeUint256]
  simp only [length_writeU32, hhashLength] at h₁ h₂ h₄
  simp only [CTxIn.size]
  omega

theorem consumes_txOut : Consumes readTxOut fun out => out.size := by
  intro c out c' hrun
  obtain ⟨v, c₁, hv, hrun⟩ := run_bind_eq_some hrun
  obtain ⟨script, c₂, hscript, hrun⟩ := run_bind_eq_some hrun
  cases hrun
  have h₁ := consumes_of_exact exact_u64 c v c₁ hv
  have h₂ := consumes_varStr c₁ script c' hscript
  have hvalueLength : (writeU64 v).length = 8 := length_leEncode 8 _
  simp only [hvalueLength] at h₁
  simp only [CTxOut.size]
  omega

/-- A decoded transaction never takes more bytes than its decoding consumed. -/
theorem consumes_transaction : Consumes readTransaction fun tx => (serializeTransaction tx).length := by
  intro c tx c' hrun
  obtain ⟨ver, c₁, hver, hrun⟩ := run_bind_eq_some hrun
  obtain ⟨nvin, c₂, hnvin, hrun⟩ := run_bind_eq_some hrun
  obtain ⟨vin, c₃, hvin, hrun⟩ := run_bind_eq_some hrun
  obtain ⟨nvout, c₄, hnvout, hrun⟩ := run_bind_eq_some hrun
  obtain ⟨vout, c₅, hvout, hrun⟩ := run_bind_eq_some hrun
  obtain ⟨lockTime, c₆, hlockTime, hrun⟩ := run_bind_eq_some hrun
  cases hrun
  have h₁ := consumes_of_exact exact_u32 c ver c₁ hver
  have h₂ := consumes_count c₁ nvin c₂ hnvin
  have h₃ := consumes_txIn.many nvin c₂ vin c₃ hvin
  have h₄ := consumes_count c₃ nvout c₄ hnvout
  have h₅ := consumes_txOut.many nvout c₄ vout c₅ hvout
  have h₆ := consumes_of_exact exact_u32 c₅ lockTime c' hlockTime
  simp only [length_writeU32] at h₁ h₃ h₅ h₆
  simp only [length_serializeTransaction, CTransaction.size, length_many hvin, length_many hvout]
  omega

theorem consumes_blockHeader : Consumes readBlockHeader fun _ => 80 := by
  intro c hdr c' hrun
  have hpos := consumes_of_exact exact_blockHeader c hdr c' hrun
  simpa only [length_serializeBlockHeader] using hpos

end Consumption

section Shadows

theorem shadows_bytes {n : Nat} (hn : n ≤ 32) : Shadows SIZE_WORDS (walkBytes n) (readBytes n) :=
  shadows_take (by rw [SIZE_WORDS]; omega)

theorem shadows_u8 : Shadows SIZE_WORDS walkU8 readU8 := (shadows_bytes (by decide)).map _

theorem shadows_u32 : Shadows SIZE_WORDS walkU32 readU32 := (shadows_bytes (by decide)).map _

theorem shadows_u64 : Shadows SIZE_WORDS walkU64 readU64 := (shadows_bytes (by decide)).map _

theorem shadows_uint256 : Shadows SIZE_WORDS walkUint256 readUint256 := (shadows_bytes (by decide)).map _

theorem shadows_varInt : Shadows SIZE_WORDS walkVarInt readVarInt := by
  refine ((shadows_bytes (by decide)).map _).bind fun first => ?_
  refine (shadows_pure _).ite (Shadows.ite ?_ (Shadows.ite ?_ ?_))
  all_goals exact (shadows_bytes (by decide)).map _

theorem shadows_boundedCount (limit : Nat) : Shadows SIZE_WORDS (walkBoundedCount limit) (readBoundedCount limit) := by
  refine shadows_varInt.bind fun n => ?_
  exact shadows_failure.ite (shadows_pure n)

theorem shadows_array {n : Nat} (hn : n ≤ 32) : Shadows SIZE_WORDS (walkArray n) (readArray n) := by
  refine (shadows_bytes hn).bind fun bytes => ?_
  split
  · exact shadows_pure _
  · exact shadows_failure

/-- The length of a string is checked and its bytes taken in one step. -/
theorem readVarStr_eq : readVarStr = (do
    let n ← readVarInt
    let bytes ← (fun c => if n > c.remaining then none else codec.take n c : Reader Bytes)
    if h : bytes.length < 2 ^ 64 then pure ⟨bytes, h⟩ else failure) := by
  refine congrArg (readVarInt >>= ·) (funext fun n => funext fun c => ?_)
  change (if n > c.remaining then _ else _ : Reader Script) c = (if n > c.remaining then none else codec.take n c).bind _
  by_cases hshort : n > c.remaining
  · rw [if_pos hshort, if_pos hshort]
    rfl
  · rw [if_neg hshort, if_neg hshort]
    rfl

theorem shadows_varStr : Shadows SIZE_WORDS walkVarStr readVarStr := by
  rw [readVarStr_eq]
  refine shadows_varInt.bind fun n => (shadows_takeLeft n).bind fun bytes => ?_
  split
  · exact shadows_pure _
  · exact shadows_failure

theorem shadows_txIn : Shadows SIZE_WORDS walkTxIn readTxIn :=
  shadows_uint256.bind fun _ => shadows_u32.bind fun _ => shadows_varStr.bind fun _ => shadows_u32.bind fun _ =>
    shadows_pure _

theorem shadows_txOut : Shadows SIZE_WORDS walkTxOut readTxOut :=
  shadows_u64.bind fun _ => shadows_varStr.bind fun _ => shadows_pure _

theorem shadows_transaction : Shadows SIZE_WORDS walkTransaction readTransaction :=
  shadows_u32.bind fun _ => (shadows_boundedCount 100000).bind fun nvin => (shadows_txIn.many nvin).bind fun _ =>
    (shadows_boundedCount 100000).bind fun nvout => (shadows_txOut.many nvout).bind fun _ => shadows_u32.bind fun _ =>
      shadows_pure _

theorem shadows_blockHeader : Shadows SIZE_WORDS walkBlockHeader readBlockHeader :=
  shadows_u32.bind fun _ => shadows_uint256.bind fun _ => shadows_uint256.bind fun _ => shadows_u32.bind fun _ =>
    shadows_u32.bind fun _ => shadows_u32.bind fun _ => shadows_pure _

theorem shadows_headerAhead : Shadows SIZE_WORDS (ahead SIZE_WORDS walkBlockHeader fun _ => 80) readHeaderAhead := by
  have hahead := shadows_blockHeader.ahead consumes_blockHeader
  have hsame : readHeaderAhead = fun c =>
      (readBlockHeader.run ⟨c.buf.drop c.pos, 0⟩).map fun r => (r.1, ⟨c.buf, c.pos + 80⟩) := by
    funext c
    rw [readHeaderAhead, deserializeBlockHeader, Option.map_map]
    rfl
  rw [hsame]
  exact hahead

theorem shadows_blockTx :
    Shadows SIZE_WORDS (ahead SIZE_WORDS walkTransaction fun tx => (serializeTransaction tx).length) readBlockTx := by
  have hahead := shadows_transaction.ahead consumes_transaction
  have hsame : readBlockTx = fun c =>
      (readTransaction.run ⟨c.buf.drop c.pos, 0⟩).map fun r => (r.1, ⟨c.buf, c.pos + (serializeTransaction r.1).length⟩) := by
    funext c
    rw [readBlockTx, deserializeTransaction, Option.map_map]
    rfl
  rw [hsame]
  exact hahead

/-- `DeserializeBlock` with the cursor it sets behind the header. -/
def readBlock : Reader CBlock := do
  let header ← readHeaderAhead
  let ntx ← readCount
  let vtx ← codec.many readBlockTx ntx
  pure { header, vtx }

theorem deserializeBlock_eq (data : Bytes) : deserializeBlock data = (readBlock.run ⟨data, 0⟩).map Prod.fst := by
  rw [deserializeBlock, readBlock, StateT.run_bind]
  have hheader : readHeaderAhead.run ⟨data, 0⟩ = (deserializeBlockHeader data).map fun hdr => (hdr, ⟨data, 80⟩) := rfl
  rw [hheader]
  cases deserializeBlockHeader data with
  | none => rfl
  | some header =>
    simp only [Option.map_some, Option.bind_eq_bind, Option.bind_some, StateT.run_bind]
    cases readCount.run ⟨data, 80⟩ with
    | none => rfl
    | some first =>
      simp only [Option.bind_some]
      cases (codec.many readBlockTx first.1).run first.2 with
      | none => rfl
      | some last => rfl

theorem shadows_block : Shadows SIZE_WORDS walkBlock readBlock :=
  shadows_headerAhead.bind fun _ => (shadows_boundedCount 100000).bind fun ntx => (shadows_blockTx.many ntx).bind fun _ =>
    shadows_pure _

theorem shadows_version : Shadows SIZE_WORDS walkVersion readVersion :=
  shadows_u32.bind fun _ => shadows_u64.bind fun _ => shadows_u64.bind fun _ => (shadows_array (by decide)).bind fun _ =>
    (shadows_array (by decide)).bind fun _ => shadows_u64.bind fun _ => shadows_varStr.bind fun _ => shadows_u32.bind fun _ =>
      shadows_u8.bind fun _ => shadows_pure _

theorem shadows_inv : Shadows SIZE_WORDS walkInv readInv :=
  (shadows_boundedCount _).bind fun n =>
    (shadows_u32.bind fun _ => shadows_uint256.bind fun _ => shadows_pure _ : Shadows SIZE_WORDS walkInvItem readInvItem).many n

theorem shadows_getHeaders : Shadows SIZE_WORDS walkGetHeaders readGetHeaders :=
  (shadows_boundedCount 1000).bind fun n => (shadows_uint256.many n).bind fun _ => shadows_uint256.bind fun _ => shadows_pure _

theorem shadows_headers : Shadows SIZE_WORDS walkHeaders readHeaders :=
  (shadows_boundedCount 2000).bind fun n =>
    (shadows_headerAhead.bind fun _ => shadows_u8.bind fun _ => shadows_pure _ :
      Shadows SIZE_WORDS walkHeadersItem readHeadersItem).many n

/-- A compact size that is cut off is refused with the cursor behind its marker. -/
example : start walkVarInt [0xfd, 0x01] = (none, [⟨0, 1⟩]) := by decide

/-- The bytes of a vector: at most as many as a pointer difference can count. -/
abbrev Payload := { bytes : Bytes // bytes.length < 2 ^ 63 }

/-- The walk over a payload ends with this result, and all its accesses and all positions of its cursors are inside. -/
def StaysInside {α : Type} (w : Walker α) (payload : Payload) (result : Option α) : Prop :=
  (start w payload.val).1 = result ∧ ∀ access ∈ (start w payload.val).2, access.start + access.count ≤ payload.val.length

theorem staysInside {α : Type} {w : Walker α} {d : Reader α} (hw : Shadows SIZE_WORDS w d) (payload : Payload) :
    StaysInside w payload ((d.run ⟨payload.val, 0⟩).map Prod.fst) := by
  have hsize := payload.property
  exact hw.start (by rw [SIZE_WORDS]; omega)

/-- No decoder leaves its buffer, whatever bytes it is given. -/
theorem decoders_stayInside (payload : Payload) :
    StaysInside walkTransaction payload (deserializeTransaction payload.val) ∧
    StaysInside walkBlock payload (deserializeBlock payload.val) ∧
    StaysInside walkHeaders payload (parseHeadersPayload payload.val) ∧
    StaysInside walkGetHeaders payload (parseGetHeadersPayload payload.val) ∧
    StaysInside walkInv payload (deserializeInv payload.val) ∧
    StaysInside walkVersion payload (deserializeVersion payload.val) := by
  rw [deserializeBlock_eq]
  exact ⟨staysInside shadows_transaction payload, staysInside shadows_block payload, staysInside shadows_headers payload,
    staysInside shadows_getHeaders payload, staysInside shadows_inv payload, staysInside shadows_version payload⟩

end Shadows

end cdx
