import Cdx.Lib.Pointer
import Cdx.Transaction.Serializer

namespace cdx

open codec pointer walk

/-! The documents that the peer registry exchanges with its database: the writer `BsonDoc` and the
reader `ParseBson`. -/

/-- A document under construction: four bytes for its length, then its elements. -/
structure BsonDoc where
  b : Bytes := [0, 0, 0, 0]

namespace BsonDoc

/-- The terminator is added first, so that the length counts it. -/
def finish (d : BsonDoc) : BsonDoc :=
  let b := d.b ++ [0]
  { b := writeU32 (UInt32.ofNat b.length) ++ b.drop 4 }

/-- Every call adds a type, a key with its terminator, and a value. -/
def element (d : BsonDoc) (type : UInt8) (k value : Bytes) : BsonDoc := { b := d.b ++ type :: (k ++ 0 :: value) }

def addI32 (v : Int32) : Bytes := writeU32 v.toUInt32

def addI64 (v : Int64) : Bytes := writeU64 v.toUInt64

def str (d : BsonDoc) (k v : Bytes) : BsonDoc := d.element 0x02 k (addI32 (Int32.ofNat v.length + 1) ++ v ++ [0])

def i32 (d : BsonDoc) (k : Bytes) (v : Int32) : BsonDoc := d.element 0x10 k (addI32 v)

def i64 (d : BsonDoc) (k : Bytes) (v : Int64) : BsonDoc := d.element 0x12 k (addI64 v)

def boolean (d : BsonDoc) (k : Bytes) (v : Bool) : BsonDoc := d.element 0x08 k [if v then 1 else 0]

def null (d : BsonDoc) (k : Bytes) : BsonDoc := d.element 0x0A k []

def binary (d : BsonDoc) (k v : Bytes) : BsonDoc := d.element 0x05 k (addI32 (Int32.ofNat v.length) ++ 0 :: v)

def doc (d : BsonDoc) (k : Bytes) (inner : BsonDoc) : BsonDoc := d.element 0x03 k inner.finish.b

/-- The loop of `arrDoc`: the items under their indices, from `i` on. -/
def addItems (arr : BsonDoc) (i : Nat) : List BsonDoc → BsonDoc
  | [] => arr
  | item :: rest => addItems (arr.doc (ascii (toString i)) item) (i + 1) rest

def arrDoc (d : BsonDoc) (k : Bytes) (items : List BsonDoc) : BsonDoc := d.element 0x04 k (addItems {} 0 items).finish.b

end BsonDoc

/-- A decoded value: the fields that its type does not use keep their defaults. -/
structure BsonValue where
  type : UInt8
  str : Bytes := []
  i64 : Int64 := 0
  boolean : Bool := false
  bytes : Bytes := []
  doc : List (Bytes × BsonValue) := []

/-- The conversion of a `double`, given by its bits, to an integer. The language leaves it open where
    the integer does not fit, and so does this class everywhere. -/
class Doubles where
  toInt64 : UInt64 → Int64

/-- What a call of `ParseBson` returns, the fields it has added to `out`, and the bytes it has read. -/
structure BsonParsed where
  ok : Bool
  out : List (Bytes × BsonValue)
  reads : List Access

/-- A field is added and the loop goes on. -/
def BsonParsed.push (rest : BsonParsed) (field : Bytes × BsonValue) (reads : List Access) : BsonParsed :=
  { ok := rest.ok, out := field :: rest.out, reads := reads ++ rest.reads }

section Reader

variable [Doubles]

def loadU32 (p : Pointer UInt8) (pos : Nat) : UInt32 := UInt32.ofNat (leDecode (load p pos 4))

def loadU64 (p : Pointer UInt8) (pos : Nat) : UInt64 := UInt64.ofNat (leDecode (load p pos 8))

def loadI32 (p : Pointer UInt8) (pos : Nat) : Int32 := (loadU32 p pos).toInt32

def loadI64 (p : Pointer UInt8) (pos : Nat) : Int64 := (loadU64 p pos).toInt64

/-- A value of fixed width behind its check: what becomes of it, and the bytes it takes. -/
def fixedValue (docLen pos width : Nat) (v : BsonValue) : Option (BsonValue × Nat) × List Access :=
  if pos + width > docLen then (none, []) else (some (v, width), [⟨pos, width⟩])

/-- A value behind its length: `header` bytes that begin with the length `n`, then `n` bytes of which the
    first `used n` are read. -/
def sizedValue (p : Pointer UInt8) (docLen pos header : Nat) (v : Nat → BsonValue) (used : Nat → Nat) :
    Option (BsonValue × Nat) × List Access :=
  if pos + header > docLen then (none, [])
  else
    let n := (loadI32 p pos).toInt
    if n < 0 ∨ n.toNat > docLen - (pos + header) then (none, [⟨pos, header⟩])
    else (some (v n.toNat, header + n.toNat), [⟨pos, header⟩, ⟨pos + header, used n.toNat⟩])

/-- The cases of the `switch` that call nothing: the value and the move of the cursor, unless the case
    returns false, and the bytes read. Object ids and booleans are not checked against the length. -/
def parseScalar (p : Pointer UInt8) (docLen : Nat) (type : UInt8) (pos : Nat) : Option (BsonValue × Nat) × List Access :=
  if type = 0x01 then fixedValue docLen pos 8 { type := type, i64 := Doubles.toInt64 (loadU64 p pos) }
  else if type = 0x02 then
    sizedValue p docLen pos 4 (fun n => { type := type, str := load p (pos + 4) (n - 1) }) fun n => n - 1
  else if type = 0x05 then sizedValue p docLen pos 5 (fun n => { type := type, bytes := load p (pos + 5) n }) fun n => n
  else if type = 0x07 then (some ({ type := type }, 12), [])
  else if type = 0x08 then (some ({ type := type, boolean := p pos ≠ 0 }, 1), [⟨pos, 1⟩])
  else if type = 0x09 ∨ type = 0x11 then fixedValue docLen pos 8 { type := type, i64 := loadI64 p pos }
  else if type = 0x0A then (some ({ type := type }, 0), [])
  else if type = 0x10 then fixedValue docLen pos 4 { type := type, i64 := (loadI32 p pos).toInt64 }
  else if type = 0x12 then fixedValue docLen pos 8 { type := type, i64 := loadI64 p pos }
  else (none, [])

/-- Where the loop over the key stops. -/
def keyEnd (p : Pointer UInt8) (docLen keyStart : Nat) : Nat := scan p 0 (docLen - keyStart) keyStart

omit [Doubles] in
theorem le_keyEnd (p : Pointer UInt8) (docLen keyStart : Nat) : keyStart ≤ keyEnd p docLen keyStart := (scan_spec _ _ _ _).1

/-- The type and the key of an element, as far as they are read. -/
def keyReads (docLen pos stop : Nat) : List Access := [⟨pos, 1⟩, ⟨pos + 1, min (stop + 1) docLen - (pos + 1)⟩]

mutual

/-- `ParseBson` on the `len` bytes at `p`. -/
def parseBson (p : Pointer UInt8) (len : Nat) : BsonParsed :=
  if len < 5 then { ok := false, out := [], reads := [] }
  else
    let docLen := (loadU32 p 0).toNat
    if docLen < 5 ∨ docLen > len then { ok := false, out := [], reads := [⟨0, 4⟩] }
    else
      let r := parseElements p docLen 4
      { ok := r.ok, out := r.out, reads := ⟨0, 4⟩ :: r.reads }
termination_by (len, len + 1)
decreasing_by
  rename_i hdoc
  exact Prod.Lex.right' _ (Nat.not_lt.mp fun h => hdoc (.inr h)) (by omega)

/-- The loop of `ParseBson` from a position on. What a nested call returns is ignored. -/
def parseElements (p : Pointer UInt8) (docLen pos : Nat) : BsonParsed :=
  if pos + 1 < docLen then
    let type := p pos
    if type = 0 then { ok := true, out := [], reads := [⟨pos, 1⟩] }
    else
      let stop := keyEnd p docLen (pos + 1)
      if stop ≥ docLen then { ok := false, out := [], reads := keyReads docLen pos stop }
      else
        let k := load p (pos + 1) (stop - (pos + 1))
        if type = 0x03 ∨ type = 0x04 then
          if stop + 1 + 4 > docLen then { ok := false, out := [], reads := keyReads docLen pos stop }
          else
            let subLen := (loadU32 p (stop + 1)).toNat
            if subLen < 5 ∨ subLen > docLen - (stop + 1) then
              { ok := false, out := [], reads := keyReads docLen pos stop ++ [⟨stop + 1, 4⟩] }
            else
              let sub := parseBson (shift p (stop + 1)) subLen
              (parseElements p docLen (stop + 1 + subLen)).push (k, { type := type, doc := sub.out })
                (keyReads docLen pos stop ++ ⟨stop + 1, 4⟩ :: sub.reads.map fun a => ⟨stop + 1 + a.start, a.count⟩)
        else
          match parseScalar p docLen type (stop + 1) with
          | (none, reads) => { ok := false, out := [], reads := keyReads docLen pos stop ++ reads }
          | (some (v, moved), reads) =>
            (parseElements p docLen (stop + 1 + moved)).push (k, v) (keyReads docLen pos stop ++ reads)
  else { ok := true, out := [], reads := [] }
termination_by (docLen, docLen - pos)
decreasing_by
  all_goals have hstop : pos + 1 ≤ stop := le_keyEnd p docLen (pos + 1)
  · exact Prod.Lex.left _ _ (show subLen < docLen by omega)
  · exact Prod.Lex.right _ (by omega)
  · exact Prod.Lex.right _ (by omega)

end

end Reader

/-- A key of a call: a string that ends at its terminator. -/
abbrev BsonKey := { k : Bytes // (0 : UInt8) ∉ k }

/-- The calls that build a document, with those that build the documents inside it. -/
inductive BsonCall
  | str (k : BsonKey) (v : Bytes)
  | i32 (k : BsonKey) (v : Int32)
  | i64 (k : BsonKey) (v : Int64)
  | boolean (k : BsonKey) (v : Bool)
  | null (k : BsonKey)
  | binary (k : BsonKey) (v : Bytes)
  | doc (k : BsonKey) (inner : List BsonCall)
  | arrDoc (k : BsonKey) (items : List (List BsonCall))

mutual

/-- The document after a call. -/
def BsonCall.on (d : BsonDoc) : BsonCall → BsonDoc
  | .str k v => d.str k v
  | .i32 k v => d.i32 k v
  | .i64 k v => d.i64 k v
  | .boolean k v => d.boolean k v
  | .null k => d.null k
  | .binary k v => d.binary k v
  | .doc k inner => d.doc k (buildFrom {} inner)
  | .arrDoc k items => d.arrDoc k (buildAll items)

def buildFrom (d : BsonDoc) : List BsonCall → BsonDoc
  | [] => d
  | call :: rest => buildFrom (call.on d) rest

def buildAll : List (List BsonCall) → List BsonDoc
  | [] => []
  | item :: rest => buildFrom {} item :: buildAll rest

end

mutual

/-- The field that a call stands for: integers are widened, and the items of an array have their
    index as key. -/
def BsonCall.field : BsonCall → Bytes × BsonValue
  | .str k v => (k, { type := 0x02, str := v })
  | .i32 k v => (k, { type := 0x10, i64 := v.toInt64 })
  | .i64 k v => (k, { type := 0x12, i64 := v })
  | .boolean k v => (k, { type := 0x08, boolean := v })
  | .null k => (k, { type := 0x0A })
  | .binary k v => (k, { type := 0x05, bytes := v })
  | .doc k inner => (k, { type := 0x03, doc := fieldsOf inner })
  | .arrDoc k items => (k, { type := 0x04, doc := fieldsOfItems 0 items })

def fieldsOf : List BsonCall → List (Bytes × BsonValue)
  | [] => []
  | call :: rest => call.field :: fieldsOf rest

def fieldsOfItems (i : Nat) : List (List BsonCall) → List (Bytes × BsonValue)
  | [] => []
  | item :: rest => (ascii (toString i), { type := 0x03, doc := fieldsOf item }) :: fieldsOfItems (i + 1) rest

end

section Writer

namespace BsonCall

def type : BsonCall → UInt8
  | .str .. => 0x02
  | .i32 .. => 0x10
  | .i64 .. => 0x12
  | .boolean .. => 0x08
  | .null .. => 0x0A
  | .binary .. => 0x05
  | .doc .. => 0x03
  | .arrDoc .. => 0x04

def key : BsonCall → BsonKey
  | .str k _ | .i32 k _ | .i64 k _ | .boolean k _ | .null k | .binary k _ | .doc k _ | .arrDoc k _ => k

def value : BsonCall → Bytes
  | .str _ v => BsonDoc.addI32 (Int32.ofNat v.length + 1) ++ v ++ [0]
  | .i32 _ v => BsonDoc.addI32 v
  | .i64 _ v => BsonDoc.addI64 v
  | .boolean _ v => [if v then 1 else 0]
  | .null _ => []
  | .binary _ v => BsonDoc.addI32 (Int32.ofNat v.length) ++ 0 :: v
  | .doc _ inner => (buildFrom {} inner).finish.b
  | .arrDoc _ items => (BsonDoc.addItems {} 0 (buildAll items)).finish.b

def encode (call : BsonCall) : Bytes := call.type :: (call.key.val ++ 0 :: call.value)

theorem on_eq (call : BsonCall) (d : BsonDoc) : (call.on d).b = d.b ++ call.encode := by
  cases call <;> rfl

end BsonCall

theorem buildFrom_eq (d : BsonDoc) (calls : List BsonCall) : (buildFrom d calls).b = d.b ++ calls.flatMap BsonCall.encode := by
  induction calls generalizing d with
  | nil => exact (List.append_nil _).symm
  | cons call rest ih => rw [buildFrom, ih, BsonCall.on_eq, List.flatMap_cons, List.append_assoc]

/-- A finished document around its elements. -/
def document (body : Bytes) : Bytes := writeU32 (UInt32.ofNat (body.length + 5)) ++ (body ++ [0])

theorem length_document (body : Bytes) : (document body).length = body.length + 5 := by
  simp only [document, writeU32, List.length_append, length_leEncode, List.length_singleton]
  omega

theorem finish_buildFrom (calls : List BsonCall) : (buildFrom {} calls).finish.b = document (calls.flatMap BsonCall.encode) := by
  have hlength : (([0, 0, 0, 0] : Bytes) ++ (calls.flatMap BsonCall.encode ++ [0])).length =
      (calls.flatMap BsonCall.encode).length + 5 := by
    simp only [List.length_append, List.length_cons, List.length_nil]
    omega
  simp only [BsonDoc.finish, buildFrom_eq, document, List.append_assoc, hlength]
  rfl

theorem zero_notMem_index (i : Nat) : (0 : UInt8) ∉ ascii (toString i) := by
  intro hmem
  obtain ⟨c, hc, hzero⟩ := List.mem_map.mp hmem
  have hdigit : c.isDigit = true := by
    rw [show (toString i).toList = Nat.toDigits 10 i by simp [toString]] at hc
    exact Nat.isDigit_of_mem_toDigits (by decide) (by decide) hc
  have hrange := Char.isDigit_iff_toNat.mp hdigit
  have hvalue : c.toNat % 256 = 0 := by
    rw [← UInt8.toNat_ofNat', hzero]
    rfl
  simp only [Char.reduceToNat] at hrange
  omega

def indexKey (i : Nat) : BsonKey := ⟨ascii (toString i), zero_notMem_index i⟩

/-- The calls that `arrDoc` makes on the document of an array. -/
def itemCalls (i : Nat) : List (List BsonCall) → List BsonCall
  | [] => []
  | item :: rest => .doc (indexKey i) item :: itemCalls (i + 1) rest

theorem addItems_eq (arr : BsonDoc) (i : Nat) (items : List (List BsonCall)) :
    arr.addItems i (buildAll items) = buildFrom arr (itemCalls i items) := by
  induction items generalizing arr i with
  | nil => rfl
  | cons item rest ih => exact ih _ _

theorem fieldsOfItems_eq (i : Nat) (items : List (List BsonCall)) : fieldsOfItems i items = fieldsOf (itemCalls i items) := by
  induction items generalizing i with
  | nil => rfl
  | cons item rest ih => rw [fieldsOfItems, itemCalls, fieldsOf, BsonCall.field, ih, indexKey]

/-- The calls that build the document inside a call. -/
def BsonCall.inner : BsonCall → Option (List BsonCall)
  | .doc _ inner => some inner
  | .arrDoc _ items => some (itemCalls 0 items)
  | _ => none

theorem inner_eq_some {call : BsonCall} {inner : List BsonCall} (hinner : call.inner = some inner) :
    (call.type = 0x03 ∨ call.type = 0x04) ∧ call.value = document (inner.flatMap BsonCall.encode) ∧
      call.field = (call.key.val, { type := call.type, doc := fieldsOf inner }) := by
  cases call with
  | doc k calls =>
    cases hinner
    exact ⟨.inl rfl, finish_buildFrom _, rfl⟩
  | arrDoc k items =>
    cases hinner
    refine ⟨.inr rfl, ?_, ?_⟩
    · rw [BsonCall.value, addItems_eq, finish_buildFrom]
    · rw [BsonCall.field, fieldsOfItems_eq]
      rfl
  | _ => cases hinner

theorem inner_eq_none {call : BsonCall} (hinner : call.inner = none) :
    ¬(call.type = 0x03 ∨ call.type = 0x04) ∧ call.field = (call.key.val, call.field.2) := by
  cases call with
  | doc k calls => cases hinner
  | arrDoc k items => cases hinner
  | _ => exact ⟨by simp [BsonCall.type], rfl⟩

theorem BsonCall.type_ne_zero (call : BsonCall) : call.type ≠ 0 := by
  cases call <;> simp [BsonCall.type]

end Writer

section RoundTrip

variable [Doubles] {p : Pointer UInt8} {docLen pos : Nat}

omit [Doubles] in
theorem loadU32_of_holds {v : UInt32} (hp : Holds p pos (writeU32 v)) : loadU32 p pos = v := by
  have hload : load p pos 4 = writeU32 v := hp
  rw [loadU32, hload, writeU32, leDecode_leEncode_of_lt v.toNat_lt, UInt32.ofNat_toNat]

omit [Doubles] in
theorem loadI32_of_holds {v : Int32} (hp : Holds p pos (BsonDoc.addI32 v)) : loadI32 p pos = v := by
  rw [loadI32, loadU32_of_holds hp, Int32.toInt32_toUInt32]

omit [Doubles] in
theorem loadI64_of_holds {v : Int64} (hp : Holds p pos (BsonDoc.addI64 v)) : loadI64 p pos = v := by
  have hload : load p pos 8 = writeU64 v.toUInt64 := hp
  rw [loadI64, loadU64, hload, writeU64, leDecode_leEncode_of_lt v.toUInt64.toNat_lt, UInt64.ofNat_toNat,
    Int64.toInt64_toUInt64]

theorem parseScalar_fixed {type : UInt8} {width : Nat} {v : BsonValue} (hroom : pos + width ≤ docLen)
    (hcase : parseScalar p docLen type pos = fixedValue docLen pos width v) :
    ∃ reads, parseScalar p docLen type pos = (some (v, width), reads) :=
  ⟨[⟨pos, width⟩], by rw [hcase, fixedValue, if_neg (Nat.not_lt.mpr hroom)]⟩

theorem parseScalar_sized {type : UInt8} {header n : Nat} {v : Nat → BsonValue} {used : Nat → Nat}
    (hlen : (loadI32 p pos).toInt = n) (hroom : pos + (header + n) ≤ docLen)
    (hcase : parseScalar p docLen type pos = sizedValue p docLen pos header v used) :
    ∃ reads, parseScalar p docLen type pos = (some (v n, header + n), reads) := by
  refine ⟨[⟨pos, header⟩, ⟨pos + header, used n⟩], ?_⟩
  rw [hcase, sizedValue, if_neg (by omega)]
  simp only [hlen, Int.toNat_natCast]
  rw [if_neg (by omega)]

/-- The value of a call without an inner document is read back. -/
theorem parseScalar_of_holds {call : BsonCall} (hscalar : call.inner = none) (hp : Holds p pos call.value)
    (hroom : pos + call.value.length ≤ docLen) (hsize : docLen < 2 ^ 31) :
    ∃ reads, parseScalar p docLen call.type pos = (some (call.field.2, call.value.length), reads) := by
  have hlength : ∀ v : Int32, (BsonDoc.addI32 v).length = 4 := fun v => length_leEncode 4 _
  cases call with
  | str k v =>
    simp only [BsonCall.value, List.append_assoc, List.length_append, hlength, List.length_singleton] at hp hroom ⊢
    obtain ⟨hlen, hrest⟩ := holds_append.mp hp
    have hload : load p (pos + 4) v.length = v := (holds_append.mp hrest).1
    have hsl : (loadI32 p pos).toInt = (v.length + 1 : Nat) := by
      rw [loadI32_of_holds hlen, ← Int32.toInt_ofNat_of_lt (show v.length + 1 < 2 ^ 31 by omega), Int32.ofNat_add]
      rfl
    have hcase : parseScalar p docLen 0x02 pos =
        sizedValue p docLen pos 4 (fun n => { type := 0x02, str := load p (pos + 4) (n - 1) }) fun n => n - 1 := rfl
    have hread := parseScalar_sized hsl hroom hcase
    simp only [Nat.add_sub_cancel, hload] at hread
    exact hread
  | i32 k v => exact parseScalar_fixed hroom (by rw [BsonCall.field, ← loadI32_of_holds hp]; rfl)
  | i64 k v => exact parseScalar_fixed hroom (by rw [BsonCall.field, ← loadI64_of_holds hp]; rfl)
  | boolean k v =>
    have hbyte : p pos = if v then 1 else 0 := (holds_cons.mp hp).1
    have hflag : decide (p pos ≠ 0) = v := by
      rw [hbyte]
      cases v <;> rfl
    exact ⟨[⟨pos, 1⟩], by rw [BsonCall.field, ← hflag]; rfl⟩
  | null k => exact ⟨[], rfl⟩
  | binary k v =>
    simp only [BsonCall.value, List.length_append, hlength, List.length_cons] at hp hroom ⊢
    obtain ⟨hlen, hrest⟩ := holds_append.mp hp
    have hload : load p (pos + 5) v.length = v := (holds_cons.mp hrest).2
    have hbl : (loadI32 p pos).toInt = (v.length : Nat) := by
      rw [loadI32_of_holds hlen, Int32.toInt_ofNat_of_lt (by omega)]
    have hcase : parseScalar p docLen 0x05 pos =
        sizedValue p docLen pos 5 (fun n => { type := 0x05, bytes := load p (pos + 5) n }) fun n => n := rfl
    have hread := parseScalar_sized hbl (by omega) hcase
    simp only [hload, show 5 + v.length = 4 + (v.length + 1) by omega] at hread
    exact hread
  | doc k inner => cases hscalar
  | arrDoc k items => cases hscalar

omit [Doubles] in
/-- The key of an element ends at its terminator. -/
theorem keyEnd_of_holds {type : UInt8} {k : BsonKey} {value : Bytes} (hp : Holds p pos (type :: (k.val ++ 0 :: value)))
    (hroom : pos + 1 + k.val.length < docLen) :
    p pos = type ∧ keyEnd p docLen (pos + 1) = pos + 1 + k.val.length ∧ load p (pos + 1) k.val.length = k.val ∧
      Holds p (pos + 1 + k.val.length + 1) value := by
  obtain ⟨htype, hrest⟩ := holds_cons.mp hp
  obtain ⟨hkey, hterminated⟩ := holds_append.mp hrest
  obtain ⟨hzero, hvalue⟩ := holds_cons.mp hterminated
  refine ⟨htype, ?_, hkey, hvalue⟩
  refine scan_eq (by omega) (by omega) (fun i hle hlt => ?_) hzero
  have hne := hkey.ne_of_notMem k.property (show i - (pos + 1) < k.val.length by omega)
  rwa [Nat.add_sub_cancel' hle] at hne

/-- One round of the loop at an element that the writer has written. -/
theorem parseElements_call {call : BsonCall} (hp : Holds p pos call.encode) (hroom : pos + call.encode.length < docLen)
    (hsize : docLen < 2 ^ 31)
    (hinner : ∀ inner, call.inner = some inner → ∀ q, Holds q 0 call.value → (parseBson q call.value.length).out = fieldsOf inner) :
    ∃ reads, parseElements p docLen pos = (parseElements p docLen (pos + call.encode.length)).push call.field reads := by
  have hlength : call.encode.length = 1 + call.key.val.length + 1 + call.value.length := by
    simp only [BsonCall.encode, List.length_cons, List.length_append]
    omega
  obtain ⟨htype, hstop, hkey, hvalue⟩ := keyEnd_of_holds hp (show pos + 1 + call.key.val.length < docLen by omega)
  have hnext : pos + 1 + call.key.val.length + 1 + call.value.length = pos + call.encode.length := by omega
  have hload : load p (pos + 1) (pos + 1 + call.key.val.length - (pos + 1)) = call.key.val := by
    rw [Nat.add_sub_cancel_left]
    exact hkey
  rw [parseElements, if_pos (by omega), ← hnext]
  simp only [htype, hstop, hload, if_neg call.type_ne_zero]
  rw [if_neg (by omega)]
  cases hcase : call.inner with
  | none =>
    obtain ⟨hscalar, hfield⟩ := inner_eq_none hcase
    obtain ⟨reads, hread⟩ := parseScalar_of_holds hcase hvalue (by omega) hsize
    rw [if_neg hscalar, hread, hfield]
    exact ⟨_, rfl⟩
  | some inner =>
    obtain ⟨hdoc, hbytes, hfield⟩ := inner_eq_some hcase
    have hvalueLength : call.value.length = (inner.flatMap BsonCall.encode).length + 5 := by rw [hbytes, length_document]
    have hsubLen : (loadU32 p (pos + 1 + call.key.val.length + 1)).toNat = call.value.length := by
      rw [hbytes, document] at hvalue
      rw [loadU32_of_holds (holds_append.mp hvalue).1, UInt32.toNat_ofNat', hvalueLength]
      omega
    have hout := hinner inner hcase _ (holds_shift.mpr hvalue)
    rw [if_pos hdoc, if_neg (by omega), hsubLen, if_neg (by omega), hout, hfield]
    exact ⟨_, rfl⟩

/-- The loop over a written document, from any of its elements on. -/
theorem parseElements_calls {calls : List BsonCall} (hp : Holds p pos (calls.flatMap BsonCall.encode))
    (hend : pos + (calls.flatMap BsonCall.encode).length + 1 = docLen) (hsize : docLen < 2 ^ 31)
    (hinner : ∀ call ∈ calls, ∀ inner, call.inner = some inner → ∀ q, Holds q 0 call.value →
      (parseBson q call.value.length).out = fieldsOf inner) :
    (parseElements p docLen pos).ok = true ∧ (parseElements p docLen pos).out = fieldsOf calls := by
  induction calls generalizing pos with
  | nil =>
    rw [parseElements, if_neg (by rw [List.flatMap_nil, List.length_nil] at hend; omega)]
    exact ⟨rfl, rfl⟩
  | cons call rest ih =>
    rw [List.flatMap_cons] at hp hend
    rw [List.length_append] at hend
    obtain ⟨hcall, hrest⟩ := holds_append.mp hp
    obtain ⟨reads, hstep⟩ := parseElements_call hcall (by omega) hsize (hinner call List.mem_cons_self)
    obtain ⟨hok, hout⟩ := ih hrest (by omega) fun other hother => hinner other (List.mem_cons_of_mem _ hother)
    rw [hstep]
    exact ⟨hok, congrArg (call.field :: ·) hout⟩

/-- The induction is on the size: an inner document is shorter, and so is an array of documents. -/
theorem parseBson_document (calls : List BsonCall) (hsize : (document (calls.flatMap BsonCall.encode)).length < 2 ^ 31)
    (hp : Holds p 0 (document (calls.flatMap BsonCall.encode))) :
    (parseBson p (document (calls.flatMap BsonCall.encode)).length).ok = true ∧
      (parseBson p (document (calls.flatMap BsonCall.encode)).length).out = fieldsOf calls := by
  generalize hn : (document (calls.flatMap BsonCall.encode)).length = n at hsize ⊢
  induction n using Nat.strong_induction_on generalizing calls p with
  | _ n ih =>
    rw [length_document] at hn
    have hbody : Holds p 4 (calls.flatMap BsonCall.encode) := by
      rw [document] at hp
      exact (holds_append.mp (holds_append.mp hp).2).1
    have hdocLen : (loadU32 p 0).toNat = n := by
      rw [document] at hp
      rw [loadU32_of_holds (holds_append.mp hp).1, UInt32.toNat_ofNat', hn]
      omega
    have hinner : ∀ call ∈ calls, ∀ inner, call.inner = some inner → ∀ q, Holds q 0 call.value →
        (parseBson q call.value.length).out = fieldsOf inner := by
      intro call hcall inner hcase q hq
      obtain ⟨-, hbytes, -⟩ := inner_eq_some hcase
      have hshorter : call.value.length < n := by
        obtain ⟨before, after, rfl⟩ := List.append_of_mem hcall
        simp only [List.flatMap_append, List.flatMap_cons, List.length_append, BsonCall.encode, List.length_cons] at hn
        omega
      rw [hbytes] at hq hshorter ⊢
      exact (ih _ hshorter inner hq rfl (by omega)).2
    obtain ⟨hok, hout⟩ := parseElements_calls hbody (by omega : 4 + (calls.flatMap BsonCall.encode).length + 1 = n) hsize hinner
    rw [parseBson, if_neg (by omega)]
    simp only [hdocLen]
    rw [if_neg (by omega)]
    exact ⟨hok, hout⟩

/-- What is built and finished is read back field by field. -/
theorem parseBson_finish (calls : List BsonCall) (hsize : (buildFrom {} calls).finish.b.length < 2 ^ 31)
    (hp : Holds p 0 (buildFrom {} calls).finish.b) :
    (parseBson p (buildFrom {} calls).finish.b.length).ok = true ∧
      (parseBson p (buildFrom {} calls).finish.b.length).out = fieldsOf calls := by
  rw [finish_buildFrom] at hsize hp ⊢
  exact parseBson_document calls hsize hp

/-- A document with a number, an array of two documents and an empty text, in memory that goes on with ones. -/
def sampleCalls : List BsonCall :=
  [.i32 (indexKey 7) (-1), .arrDoc (indexKey 8) [[.boolean (indexKey 9) true], []], .str (indexKey 10) []]

def sampleMemory : Pointer UInt8 := fun i => (buildFrom {} sampleCalls).finish.b.getD i 1

/-- A conversion for documents without doubles. -/
@[reducible] def zeroDoubles : Doubles := ⟨fun _ => 0⟩

omit [Doubles] in
theorem parseBson_finish_sample : (buildFrom {} sampleCalls).finish.b.length = 49 ∧
    (@parseBson zeroDoubles sampleMemory (buildFrom {} sampleCalls).finish.b.length).ok = true ∧
    (@parseBson zeroDoubles sampleMemory (buildFrom {} sampleCalls).finish.b.length).out = fieldsOf sampleCalls :=
  ⟨by decide +kernel, @parseBson_finish zeroDoubles sampleMemory sampleCalls (by decide +kernel) (by decide +kernel)⟩

end RoundTrip

end cdx
