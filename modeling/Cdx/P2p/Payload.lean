import Cdx.Transaction.RoundTrip

namespace cdx

open codec

def MAX_INV_PER_MESSAGE : Nat := 50000

/-- The kind of an inventory item: any 32-bit word, as the enumeration is cast from the wire. -/
structure InvType where
  value : UInt32
deriving DecidableEq

namespace InvType

def TX : InvType := ⟨1⟩

def BLOCK : InvType := ⟨2⟩

end InvType

structure CInv where
  type : InvType
  hash : UInt256
deriving DecidableEq

abbrev NetAddress := { bytes : Bytes // bytes.length = 26 }

structure CVersionMessage where
  version : Int32
  services : Int64
  timestamp : Int64
  addrMe : NetAddress
  addrYou : NetAddress
  nonce : UInt64
  userAgent : Script
  startHeight : Int32
  relay : Bool
deriving DecidableEq

section Encoders

def writeU8 (v : UInt8) : Bytes := [v]

def serializeVersion (v : CVersionMessage) : Bytes :=
  writeU32 v.version.toUInt32 ++ (writeU64 v.services.toUInt64 ++ (writeU64 v.timestamp.toUInt64 ++
    (v.addrYou.val ++ (v.addrMe.val ++ (writeU64 v.nonce ++ (writeVarStr v.userAgent ++
      (writeU32 v.startHeight.toUInt32 ++ writeU8 (if v.relay then 1 else 0))))))))

def serializeInvItem (i : CInv) : Bytes := writeU32 i.type.value ++ writeUint256 i.hash

def serializeInv (inv : List CInv) : Bytes := writeVarInt inv.length ++ inv.flatMap serializeInvItem

def buildGetHeadersPayload (locator : List UInt256) (hashStop : UInt256) : Bytes :=
  writeVarInt locator.length ++ (locator.flatMap writeUint256 ++ writeUint256 hashStop)

/-- A header and the count of its transactions, which is always zero. -/
def headersItem (hdr : CBlockHeader) : Bytes := serializeBlockHeader hdr ++ writeU8 0

def buildHeadersPayload (headers : List CBlockHeader) : Bytes := writeVarInt headers.length ++ headers.flatMap headersItem

end Encoders

section Decoders

def readU8 : Reader UInt8 := (fun b => b.headD 0) <$> readBytes 1

/-- Bytes that fill an array. -/
def readArray (n : Nat) : Reader { bytes : Bytes // bytes.length = n } := do
  let bytes ← readBytes n
  if h : bytes.length = n then pure ⟨bytes, h⟩ else failure

/-- A count above the limit of the message is refused. -/
def readBoundedCount (limit : Nat) : Reader Nat := do
  let n ← readVarInt
  if n > limit then failure
  pure n

def readVersion : Reader CVersionMessage := do
  let ver ← readU32
  let svc ← readU64
  let ts ← readU64
  let addrYou ← readArray 26
  let addrMe ← readArray 26
  let nonce ← readU64
  let ua ← readVarStr
  let sh ← readU32
  let relay ← readU8
  pure { version := ver.toInt32, services := svc.toInt64, timestamp := ts.toInt64, addrMe, addrYou, nonce,
         userAgent := ua, startHeight := sh.toInt32, relay := relay ≠ 0 }

def deserializeVersion (payload : Bytes) : Option CVersionMessage := (readVersion.run ⟨payload, 0⟩).map Prod.fst

def readInvItem : Reader CInv := do
  let type ← readU32
  let hash ← readUint256
  pure ⟨⟨type⟩, hash⟩

def readInv : Reader (List CInv) := do
  let n ← readBoundedCount MAX_INV_PER_MESSAGE
  many readInvItem n

def deserializeInv (payload : Bytes) : Option (List CInv) := (readInv.run ⟨payload, 0⟩).map Prod.fst

def readGetHeaders : Reader (List UInt256 × UInt256) := do
  let n ← readBoundedCount 1000
  let locator ← many readUint256 n
  let hashStop ← readUint256
  pure (locator, hashStop)

def parseGetHeadersPayload (payload : Bytes) : Option (List UInt256 × UInt256) :=
  (readGetHeaders.run ⟨payload, 0⟩).map Prod.fst

/-- The header is parsed from the rest of the buffer by a decoder of its own, and the cursor then moved over it. -/
def readHeaderAhead : Reader CBlockHeader := fun d =>
  (deserializeBlockHeader (d.buf.drop d.pos)).map fun hdr => (hdr, ⟨d.buf, d.pos + 80⟩)

def readHeadersItem : Reader CBlockHeader := do
  let hdr ← readHeaderAhead
  let _ ← readU8
  pure hdr

def readHeaders : Reader (List CBlockHeader) := do
  let n ← readBoundedCount 2000
  many readHeadersItem n

def parseHeadersPayload (payload : Bytes) : Option (List CBlockHeader) := (readHeaders.run ⟨payload, 0⟩).map Prod.fst

end Decoders

section RoundTrips

theorem reads_u8 (v : UInt8) : Reads readU8 (writeU8 v) v :=
  (reads_take (by rfl) : Reads (readBytes 1) [v] [v]).map fun b => b.headD 0

theorem reads_array {n : Nat} (a : { bytes : Bytes // bytes.length = n }) : Reads (readArray n) a.val a := by
  intro before after
  have hread := reads_take a.property before after
  simp only [readArray, readBytes, StateT.run_bind, hread, Option.bind_eq_bind, Option.bind_some, dif_pos a.property,
    StateT.run_pure, Option.pure_def]

theorem reads_boundedCount {limit n : Nat} (hlimit : limit < 2 ^ 64) (hn : n ≤ limit) :
    Reads (readBoundedCount limit) (writeVarInt n) n := (reads_varInt (Nat.lt_of_le_of_lt hn hlimit)).atMost hn

theorem reads_version (v : CVersionMessage) : Reads readVersion (serializeVersion v) v := by
  refine (reads_u32 v.version.toUInt32).bind ((reads_u64 v.services.toUInt64).bind ?_)
  refine (reads_u64 v.timestamp.toUInt64).bind ((reads_array v.addrYou).bind ?_)
  refine (reads_array v.addrMe).bind ((reads_u64 v.nonce).bind ?_)
  refine (reads_varStr v.userAgent).bind ((reads_u32 v.startHeight.toUInt32).bind ?_)
  have hrelay : decide ((if v.relay then (1 : UInt8) else 0) ≠ 0) = v.relay := by cases v.relay <;> rfl
  have hread := (reads_u8 (if v.relay then 1 else 0)).bind_pure fun relay =>
    (⟨v.version, v.services, v.timestamp, v.addrMe, v.addrYou, v.nonce, v.userAgent, v.startHeight, relay ≠ 0⟩ :
      CVersionMessage)
  rwa [hrelay] at hread

theorem reads_invItem (i : CInv) : Reads readInvItem (serializeInvItem i) i :=
  (reads_u32 i.type.value).bind ((reads_uint256 i.hash).bind_pure fun hash => (⟨i.type, hash⟩ : CInv))

theorem reads_inv {inv : List CInv} (hinv : inv.length ≤ MAX_INV_PER_MESSAGE) : Reads readInv (serializeInv inv) inv :=
  (reads_boundedCount (by decide) hinv).bind (reads_many fun i _ => reads_invItem i)

theorem reads_getHeaders {locator : List UInt256} (hlocator : locator.length ≤ 1000) (hashStop : UInt256) :
    Reads readGetHeaders (buildGetHeadersPayload locator hashStop) (locator, hashStop) := by
  refine (reads_boundedCount (by decide) hlocator).bind ((reads_many fun h _ => reads_uint256 h).bind ?_)
  exact (reads_uint256 hashStop).bind_pure fun hashStop => (locator, hashStop)

theorem reads_headerAhead (hdr : CBlockHeader) : Reads readHeaderAhead (serializeBlockHeader hdr) hdr := by
  intro before after
  rw [StateT.run, readHeaderAhead, List.drop_left, deserializeBlockHeader_serializeBlockHeader, length_serializeBlockHeader]
  rfl

theorem reads_headersItem (hdr : CBlockHeader) : Reads readHeadersItem (headersItem hdr) hdr :=
  (reads_headerAhead hdr).bind ((reads_u8 0).bind_pure fun _ => hdr)

theorem reads_headers {headers : List CBlockHeader} (hheaders : headers.length ≤ 2000) :
    Reads readHeaders (buildHeadersPayload headers) headers :=
  (reads_boundedCount (by decide) hheaders).bind (reads_many fun hdr _ => reads_headersItem hdr)

/-- A decoder that reads an encoding reads it as a whole payload. -/
theorem run_payload {α : Type} {d : Reader α} {payload : Bytes} {a : α} (hread : Reads d payload a) :
    (d.run ⟨payload, 0⟩).map Prod.fst = some a := by
  have hrun := hread.run_start []
  rw [List.append_nil] at hrun
  rw [hrun]
  rfl

/-- Every payload within the limits of its message is read back. -/
theorem payload_roundTrip :
    (∀ v : CVersionMessage, deserializeVersion (serializeVersion v) = some v) ∧
    (∀ inv : List CInv, inv.length ≤ 50000 → deserializeInv (serializeInv inv) = some inv) ∧
    (∀ (locator : List UInt256) (hashStop : UInt256), locator.length ≤ 1000 →
      parseGetHeadersPayload (buildGetHeadersPayload locator hashStop) = some (locator, hashStop)) ∧
    ∀ headers : List CBlockHeader, headers.length ≤ 2000 → parseHeadersPayload (buildHeadersPayload headers) = some headers :=
  ⟨fun v => run_payload (reads_version v), fun _ hinv => run_payload (reads_inv hinv),
    fun _ hashStop hlocator => run_payload (reads_getHeaders hlocator hashStop),
    fun _ hheaders => run_payload (reads_headers hheaders)⟩

/-- An item of a kind that no constant names is read back as well. -/
theorem payload_roundTrip_sample :
    [(⟨.TX, 0⟩ : CInv), ⟨.BLOCK, 0⟩, ⟨⟨7⟩, 0⟩].length ≤ 50000 ∧
      deserializeInv (serializeInv [⟨.TX, 0⟩, ⟨.BLOCK, 0⟩, ⟨⟨7⟩, 0⟩]) = some [⟨.TX, 0⟩, ⟨.BLOCK, 0⟩, ⟨⟨7⟩, 0⟩] := by
  have hlength : [(⟨.TX, 0⟩ : CInv), ⟨.BLOCK, 0⟩, ⟨⟨7⟩, 0⟩].length ≤ 50000 := by decide
  exact ⟨hlength, payload_roundTrip.2.1 _ hlength⟩

end RoundTrips

end cdx
