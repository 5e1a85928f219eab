import Cdx.Lib.OrderedMap
import Cdx.Lib.Stream
import Cdx.Transaction.RoundTrip

namespace cdx

open codec stream

/-- What the code reads from memory it has not written: a local array before it
    is filled, and an element of `byHeight` past its end, with the block that
    reading it leads to. -/
class Memory where
  uninit : Nat → Bytes
  length_uninit : ∀ n, (uninit n).length = n
  readPastEnd : List UInt256 → Nat → Option CBlock

/-- The files of a data directory: the block files by number, `index.dat` and
    `chainstate.dat`. -/
structure Disk where
  blk : Nat → Option Bytes := fun _ => none
  indexDat : Option Bytes := none
  chainstateDat : Option Bytes := none

namespace Disk

def sizeOf (disk : Disk) (fileNum : Nat) : Nat :=
  match disk.blk fileNum with
  | none => 0
  | some content => content.length

/-- A write to a block file opened for appending, which creates a missing file. -/
def append (disk : Disk) (fileNum : Nat) (data : Bytes) : Disk :=
  { disk with
    blk := fun f =>
      if f = fileNum then some ((disk.blk fileNum).getD [] ++ data) else disk.blk f }

end Disk

/-- Where a stored block lies: the tuple of the block index. -/
structure BlockPos where
  height : Int
  fileNum : Nat
  offset : Nat
  size : Nat
deriving DecidableEq

structure CBlockStorage where
  disk : Disk := {}
  index : Std.ExtTreeMap UInt256 BlockPos := ∅
  loaded : Bool := false

def MAX_FILE : Nat := 128 * 1024 * 1024

/-- A signed 64-bit integer in its eight bytes. -/
def writeI64 (v : Int) : Bytes := writeU64 (Int64.ofInt v).toUInt64

def readI64 (buf : Bytes) : Int := (UInt64.ofNat (leDecode buf)).toInt64.toInt

namespace CBlockStorage

variable [Crypto] [Memory]

def encodeEntry (entry : UInt256 × BlockPos) : Bytes :=
  entry.1.getBytesLE ++ (writeI64 entry.2.height ++
    (leEncode 4 entry.2.fileNum ++ (leEncode 8 entry.2.offset ++ leEncode 8 entry.2.size)))

def encodeIndex (index : Std.ExtTreeMap UInt256 BlockPos) : Bytes :=
  leEncode 8 index.size ++ index.toList.flatMap encodeEntry

def saveIndex (s : CBlockStorage) : CBlockStorage :=
  { s with disk := { s.disk with indexDat := some (encodeIndex s.index) } }

/-- The number of the file to append to, and the disk after the write. -/
def appendToFile (s : CBlockStorage) (data : Bytes) : Nat × CBlockStorage :=
  let last := s.index.foldl (fun fileNum _ pos => if pos.fileNum > fileNum then pos.fileNum else fileNum) 0
  let size := s.disk.sizeOf last
  let fileNum := if size > 0 ∧ size + data.length > MAX_FILE then last + 1 else last
  (fileNum, { s with disk := s.disk.append fileNum data })

/-- `WriteBlock` works on the index in memory and does not load the one on disk first. -/
def writeBlock (s : CBlockStorage) (blk : CBlock) (height : Int) : CBlockStorage :=
  let ser := serializeBlock blk
  let (fileNum, s) := s.appendToFile ser
  let offset := s.disk.sizeOf fileNum - ser.length
  let pos : BlockPos := { height := height, fileNum := fileNum, offset := offset, size := ser.length }
  saveIndex { s with index := s.index.insert blk.getHash pos }

/-- The entry loop of `LoadIndex`. -/
def loadEntries : Nat → InStream UInt8 → Std.ExtTreeMap UInt256 BlockPos → Std.ExtTreeMap UInt256 BlockPos
  | 0, _, index => index
  | n + 1, inp, index =>
    let (hashBytes, inp) := read 32 (Memory.uninit 32) inp
    let (buf, inp) := read 8 (Memory.uninit 8) inp
    let height := readI64 buf
    let (buf, inp) := read 4 buf inp
    let fileNum := leDecode (buf.take 4)
    let (buf, inp) := read 8 buf inp
    let offset := leDecode buf
    let (buf, inp) := read 8 buf inp
    let size := leDecode buf
    if inp.good then
      loadEntries n inp (index.insert (UInt256.setBytesLE hashBytes)
        { height := height, fileNum := fileNum, offset := offset, size := size })
    else index

def loadIndex (s : CBlockStorage) : CBlockStorage :=
  if s.loaded then s
  else
    match s.disk.indexDat with
    | none => { s with loaded := true }
    | some content =>
      let (hdr, inp) := read 8 (Memory.uninit 8) ⟨content, true⟩
      let n := leDecode hdr
      if n > 100000000 then { s with loaded := true }
      else { s with loaded := true, index := loadEntries n inp s.index }

/-- `ReadFromFile`: a file that ends before `offset + size` fails the read. -/
def readFromFile (disk : Disk) (fileNum offset size : Nat) : Option Bytes :=
  match disk.blk fileNum with
  | none => none
  | some content =>
    if ((content.drop offset).take size).length = size then some ((content.drop offset).take size) else none

/-- The part of `ReadBlock` after the index is loaded. -/
def lookup (s : CBlockStorage) (hash : UInt256) : Option CBlock :=
  match s.index[hash]? with
  | none => none
  | some pos =>
    match readFromFile s.disk pos.fileNum pos.offset pos.size with
    | none => none
    | some data =>
      match deserializeBlock data with
      | none => none
      | some blk => if blk.getHash ≠ hash then none else some blk

def readBlock (s : CBlockStorage) (hash : UInt256) : Option CBlock × CBlockStorage :=
  let s := s.loadIndex
  (s.lookup hash, s)

def hasBlock (s : CBlockStorage) (hash : UInt256) : Bool × CBlockStorage :=
  let s := s.loadIndex
  (s.index.contains hash, s)

end CBlockStorage

end cdx
