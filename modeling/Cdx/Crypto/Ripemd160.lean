import Cdx.Crypto.Hash
import Cdx.Lib.Blocks
import Cdx.Lib.Stream

namespace cdx

open blocks codec stream

namespace Ripemd160

def R_ADD : List UInt32 := [0x00000000, 0x5A827999, 0x6ED9EBA1, 0x8F1BBCDC, 0xA953FD4E]

def L_ADD : List UInt32 := [0x50A28BE6, 0x5C4DD124, 0x6D703EF3, 0x7A6D76E9, 0x00000000]

/-- The message words of the left line, in the order they are read. -/
def R_R : List Nat := [
  0, 1, 2, 3, 4, 5, 6, 7, 8, 9, 10, 11, 12, 13, 14, 15,
  7, 4, 13, 1, 10, 6, 15, 3, 12, 0, 9, 5, 2, 14, 11, 8,
  3, 10, 14, 4, 9, 15, 8, 1, 2, 7, 0, 6, 13, 11, 5, 12,
  1, 9, 11, 10, 0, 8, 12, 4, 13, 3, 7, 15, 14, 5, 6, 2,
  4, 0, 5, 9, 7, 12, 2, 10, 14, 1, 3, 8, 11, 6, 15, 13]

def L_R : List Nat := [
  5, 14, 7, 0, 9, 2, 11, 4, 13, 6, 15, 8, 1, 10, 3, 12,
  6, 11, 3, 7, 0, 13, 5, 10, 14, 15, 8, 12, 4, 9, 1, 2,
  15, 5, 1, 3, 7, 14, 6, 9, 11, 8, 12, 2, 10, 0, 4, 13,
  8, 6, 4, 1, 3, 11, 15, 0, 5, 12, 2, 13, 9, 7, 10, 14,
  12, 15, 10, 4, 1, 5, 8, 7, 6, 2, 13, 14, 0, 3, 9, 11]

/-- The rotations of the left line. -/
def R_S : List UInt32 := [
  11, 14, 15, 12, 5, 8, 7, 9, 11, 13, 14, 15, 6, 7, 9, 8,
  7, 6, 8, 13, 11, 9, 7, 15, 7, 12, 15, 9, 11, 7, 13, 12,
  11, 13, 6, 7, 14, 9, 13, 15, 14, 8, 13, 6, 5, 12, 7, 5,
  11, 12, 14, 15, 14, 15, 9, 8, 9, 14, 5, 6, 8, 6, 5, 12,
  9, 15, 5, 11, 6, 8, 13, 12, 5, 12, 13, 14, 11, 8, 5, 6]

def L_S : List UInt32 := [
  8, 9, 9, 11, 13, 15, 15, 5, 7, 7, 8, 11, 14, 14, 12, 6,
  9, 13, 15, 7, 12, 8, 9, 11, 7, 7, 12, 7, 6, 15, 13, 11,
  9, 7, 15, 11, 8, 6, 6, 14, 12, 13, 5, 14, 13, 13, 7, 5,
  15, 5, 8, 11, 14, 14, 6, 14, 6, 9, 12, 9, 12, 5, 15, 8,
  8, 5, 12, 9, 12, 5, 14, 6, 8, 13, 6, 5, 15, 13, 11, 11]

def rol (x n : UInt32) : UInt32 := (x <<< n) ||| (x >>> (32 - n))

def f1 (x y z : UInt32) : UInt32 := x ^^^ y ^^^ z
def f2 (x y z : UInt32) : UInt32 := (x &&& y) ||| (~~~x &&& z)
def f3 (x y z : UInt32) : UInt32 := (x ||| ~~~y) ^^^ z
def f4 (x y z : UInt32) : UInt32 := (x &&& z) ||| (y &&& ~~~z)
def f5 (x y z : UInt32) : UInt32 := x ^^^ (y ||| ~~~z)

def f1of : Nat → UInt32 → UInt32 → UInt32 → UInt32
  | 0 => f1
  | 1 => f2
  | 2 => f3
  | 3 => f4
  | _ => f5

/-- The five words `h`, and the five variables of a line. -/
structure State where
  a : UInt32
  b : UInt32
  c : UInt32
  d : UInt32
  e : UInt32
deriving DecidableEq

/-- One round of a line with its function, message word, constant and rotation. -/
def State.round (s : State) (f : UInt32 → UInt32 → UInt32 → UInt32) (x k rot : UInt32) : State :=
  let t := rol (s.a + f s.b s.c s.d + x + k) rot + s.e
  ⟨s.e, t, s.b, rol s.c 10, s.d⟩

/-- Little-endian words of a byte string. -/
def words : Bytes → List UInt32
  | b0 :: b1 :: b2 :: b3 :: rest =>
    (b0.toUInt32 ||| (b1.toUInt32 <<< 8) ||| (b2.toUInt32 <<< 16) ||| (b3.toUInt32 <<< 24)) :: words rest
  | _ => []

/-- The two lines after the first `j` of their eighty rounds. -/
def lines (x : List UInt32) (s : State) : Nat → State × State
  | 0 => (s, s)
  | j + 1 =>
    let (l, r) := lines x s j
    let round := j / 16
    let rround := 4 - round
    (l.round (f1of round) (x.getD (R_R.getD j 0) 0) (R_ADD.getD round 0) (R_S.getD j 0),
      r.round (f1of rround) (x.getD (L_R.getD j 0) 0) (L_ADD.getD round 0) (L_S.getD j 0))

/-- `rmd160_transform` on a block of 64 bytes. -/
def transform (s : State) (block : Bytes) : State :=
  let (l, r) := lines (words block) s 80
  ⟨s.b + l.c + r.d, s.c + l.d + r.e, s.d + l.e + r.a, s.e + l.a + r.b, s.a + l.b + r.c⟩

def iv : State := ⟨0x67452301, 0xEFCDAB89, 0x98BADCFE, 0x10325476, 0xC3D2E1F0⟩

/-- `RIPEMD160_CTX`: only the first `buflen` bytes of the buffer mean anything. -/
structure Context where
  h : State
  total : UInt64
  buf : Bytes
  buflen : Nat

/-- `rmd160_init`, which leaves the buffer as it finds it. -/
def init (buf : Bytes) : Context where
  h := iv
  total := 0
  buf := buf
  buflen := 0

/-- One round of the loop of `rmd160_update`: what is copied into the buffer, and what is left. -/
def takeIn (ctx : Context) (data : Bytes) : Context × Bytes :=
  let take := min (64 - ctx.buflen) data.length
  let buf := overwrite ctx.buf ctx.buflen (data.take take)
  let buflen := ctx.buflen + take
  let rest := data.drop take
  if buflen = 64 then ({ ctx with h := transform ctx.h buf, buf := buf, buflen := 0 }, rest)
  else ({ ctx with buf := buf, buflen := buflen }, rest)

/-- The loop, with as many rounds as it may take. -/
def updateLoop : Nat → Context → Bytes → Context
  | 0, ctx, _ => ctx
  | fuel + 1, ctx, data =>
    if data = [] then ctx
    else
      let next := takeIn ctx data
      updateLoop fuel next.1 next.2

/-- `rmd160_update`: every round takes at least one byte. -/
def update (ctx : Context) (data : Bytes) : Context :=
  updateLoop data.length { ctx with total := ctx.total + UInt64.ofNat data.length } data

/-- A word, least significant byte first. -/
def wordBytes (w : UInt32) : Bytes := [w.toUInt8, (w >>> 8).toUInt8, (w >>> 16).toUInt8, (w >>> 24).toUInt8]

def digest (s : State) : Bytes :=
  wordBytes s.a ++ wordBytes s.b ++ wordBytes s.c ++ wordBytes s.d ++ wordBytes s.e

/-- `rmd160_final`. -/
def final (ctx : Context) : Bytes :=
  let bitlen := ctx.total * 8
  let padlen := if ctx.buflen < 56 then 56 - ctx.buflen else 120 - ctx.buflen
  let pad : Bytes := 0x80 :: List.replicate 71 0
  let ctx := update ctx (pad.take padlen)
  let lenbytes := (List.range 8).map fun i => (bitlen >>> UInt64.ofNat (8 * i)).toUInt8
  digest (update ctx lenbytes).h

/-- The context has taken in the message: its whole blocks have gone into the state, and the rest stands in
    the buffer. -/
structure Holds (ctx : Context) (message : Bytes) : Prop where
  room : ctx.buf.length = 64
  short : ctx.buflen < 64
  absorbed : absorb transform 64 iv message = ⟨ctx.h, ctx.buf.take ctx.buflen⟩

section Update

attribute [local irreducible] transform

theorem blockSize_pos : 0 < 64 := by decide

theorem init_holds {buf : Bytes} (hbuf : buf.length = 64) : Holds (init buf) [] :=
  ⟨hbuf, blockSize_pos, absorb_of_lt transform blockSize_pos iv⟩

variable {ctx : Context} {message : Bytes}

theorem Holds.length_buffer (hholds : Holds ctx message) : (ctx.buf.take ctx.buflen).length = ctx.buflen := by
  have hshort := hholds.short
  rw [List.length_take, hholds.room]
  omega

/-- The buffer has what the last whole block leaves over. -/
theorem Holds.buflen_eq (hholds : Holds ctx message) : ctx.buflen = message.length % 64 := by
  rw [← length_rest_absorb transform iv message, hholds.absorbed]
  exact hholds.length_buffer.symm

/-- The buffer after some bytes have been copied behind those that it has. -/
theorem Holds.overwrite_buf (hholds : Holds ctx message) {new : Bytes} (hnew : ctx.buflen + new.length ≤ 64) :
    (overwrite ctx.buf ctx.buflen new).length = 64 ∧
      (overwrite ctx.buf ctx.buflen new).take (ctx.buflen + new.length) = ctx.buf.take ctx.buflen ++ new := by
  have hlength := hholds.length_buffer
  have hroom := hholds.room
  constructor
  · simp only [overwrite, List.length_append, List.length_drop, hlength, hroom]
    omega
  · rw [overwrite, ← List.append_assoc, List.take_left' (by rw [List.length_append, hlength])]

/-- A round of the loop takes in the front of the data. -/
theorem takeIn_spec (hholds : Holds ctx message) {data : Bytes} (hdata : data ≠ []) :
    ∃ front, front ≠ [] ∧ data = front ++ (takeIn ctx data).2 ∧ Holds (takeIn ctx data).1 (message ++ front) ∧
      (takeIn ctx data).1.total = ctx.total := by
  -- Stated for any state: comparing two contexts field by field would unfold the hash.
  have hkept : ∀ h buf buflen (rest : Bytes), (Context.mk h ctx.total buf buflen, rest).1.total = ctx.total := fun _ _ _ _ => rfl
  have hshort := hholds.short
  have hpos := List.length_pos_of_ne_nil hdata
  obtain ⟨front, rest, rfl, hlength⟩ : ∃ front rest, data = front ++ rest ∧ front.length = min (64 - ctx.buflen) data.length := by
    refine ⟨data.take (min (64 - ctx.buflen) data.length), _, (List.take_append_drop _ data).symm, ?_⟩
    rw [List.length_take]
    omega
  obtain ⟨hbuf, hcopied⟩ := hholds.overwrite_buf (show ctx.buflen + front.length ≤ 64 by omega)
  have habsorbed : absorb transform 64 iv (message ++ front) = absorb transform 64 ctx.h (ctx.buf.take ctx.buflen ++ front) := by
    rw [← absorb_append transform blockSize_pos, hholds.absorbed]
  refine ⟨front, List.ne_nil_of_length_pos (by omega), ?_⟩
  by_cases hfull : ctx.buflen + front.length = 64
  · have hblock : overwrite ctx.buf ctx.buflen front = ctx.buf.take ctx.buflen ++ front := by
      rwa [hfull, List.take_of_length_le (by omega)] at hcopied
    rw [hblock] at hbuf
    have hcomplete := absorb_block transform blockSize_pos hbuf ctx.h []
    rw [List.append_nil, absorb_of_lt transform (show ([] : Bytes).length < 64 from blockSize_pos), ← habsorbed] at hcomplete
    have htaken : takeIn ctx (front ++ rest) =
        ({ ctx with h := transform ctx.h (ctx.buf.take ctx.buflen ++ front), buf := ctx.buf.take ctx.buflen ++ front, buflen := 0 },
          rest) := by
      simp only [takeIn, ← hlength, List.take_left, List.drop_left, hblock, if_pos hfull]
    rw [htaken]
    exact ⟨rfl, ⟨hbuf, blockSize_pos, hcomplete⟩, hkept _ _ _ _⟩
  · have htaken : takeIn ctx (front ++ rest) =
        ({ ctx with buf := overwrite ctx.buf ctx.buflen front, buflen := ctx.buflen + front.length }, rest) := by
      simp only [takeIn, ← hlength, List.take_left, List.drop_left, if_neg hfull]
    have hpart : (ctx.buf.take ctx.buflen ++ front).length < 64 := by
      rw [List.length_append, hholds.length_buffer]
      omega
    rw [absorb_of_lt transform hpart, ← hcopied] at habsorbed
    rw [htaken]
    exact ⟨rfl, ⟨hbuf, by dsimp only; omega, habsorbed⟩, rfl⟩

theorem updateLoop_spec (hholds : Holds ctx message) {fuel : Nat} {data : Bytes} (hfuel : data.length ≤ fuel) :
    Holds (updateLoop fuel ctx data) (message ++ data) ∧ (updateLoop fuel ctx data).total = ctx.total := by
  induction fuel generalizing ctx message data with
  | zero =>
    rw [List.eq_nil_of_length_eq_zero (Nat.le_zero.mp hfuel), List.append_nil]
    exact ⟨hholds, rfl⟩
  | succ fuel ih =>
    unfold updateLoop
    split
    next hnil =>
      rw [hnil, List.append_nil]
      exact ⟨hholds, rfl⟩
    next hdata =>
      obtain ⟨front, hfront, hsplit, hnext, htotal⟩ := takeIn_spec hholds hdata
      have hpos := List.length_pos_of_ne_nil hfront
      have hlength := congrArg List.length hsplit
      rw [List.length_append] at hlength
      have hless : (takeIn ctx data).2.length ≤ fuel := by omega
      obtain ⟨hrest, hkept⟩ := ih hnext hless
      rw [List.append_assoc, ← hsplit] at hrest
      exact ⟨hrest, hkept.trans htotal⟩

end Update

/-- The context has taken in the message and counted its bytes. -/
structure Streams (ctx : Context) (message : Bytes) : Prop where
  holds : Holds ctx message
  counted : ctx.total = UInt64.ofNat message.length

theorem init_streams {buf : Bytes} (hbuf : buf.length = 64) : Streams (init buf) [] := ⟨init_holds hbuf, rfl⟩

theorem Streams.update {ctx : Context} {message : Bytes} (hstreams : Streams ctx message) (data : Bytes) :
    Streams (update ctx data) (message ++ data) := by
  have hstart : Holds { ctx with total := ctx.total + UInt64.ofNat data.length } message :=
    ⟨hstreams.holds.room, hstreams.holds.short, hstreams.holds.absorbed⟩
  obtain ⟨hholds, htotal⟩ := updateLoop_spec hstart (Nat.le_refl data.length)
  refine ⟨hholds, htotal.trans ?_⟩
  rw [hstreams.counted, List.length_append, UInt64.ofNat_add]

/-- Data may come in any pieces. -/
theorem Streams.updates {ctx : Context} {message : Bytes} (hstreams : Streams ctx message) (pieces : List Bytes) :
    Streams (pieces.foldl Ripemd160.update ctx) (message ++ pieces.flatten) := by
  induction pieces generalizing ctx message with
  | nil => rwa [List.flatten_nil, List.append_nil]
  | cons piece pieces ih =>
    have hnext := ih (hstreams.update piece)
    rwa [List.append_assoc] at hnext

/-- The zeros of the padding: the fewest that fill the last block. -/
def zeroCount (len : Nat) : Nat := (119 - len % 64) % 64

/-- The message as it is hashed: a one bit, zeros and the bit length follow it. -/
def padded (message : Bytes) : Bytes :=
  message ++ (0x80 :: List.replicate (zeroCount message.length) 0 ++ leEncode 8 (8 * message.length))

theorem length_padded (message : Bytes) : (padded message).length = message.length + 1 + zeroCount message.length + 8 := by
  simp only [padded, List.length_append, List.length_cons, List.length_replicate, length_leEncode]
  omega

theorem zeroCount_spec (len : Nat) :
    64 ∣ len + 1 + zeroCount len + 8 ∧ ∀ zeros, 64 ∣ len + 1 + zeros + 8 → zeroCount len ≤ zeros := by
  unfold zeroCount
  refine ⟨by omega, fun zeros hzeros => by omega⟩

/-- `rmd160_final` hashes what the padding adds to the message. -/
theorem Streams.final_eq {ctx : Context} {message : Bytes} (hstreams : Streams ctx message) (hsize : message.length < 2 ^ 61) :
    final ctx = digest (foldBlocks transform 64 ((padded message).length / 64) iv (padded message)) := by
  have hbuflen := hstreams.holds.buflen_eq
  have hpad : (0x80 :: List.replicate 71 0 : Bytes).take (if ctx.buflen < 56 then 56 - ctx.buflen else 120 - ctx.buflen) =
      0x80 :: List.replicate (zeroCount message.length) 0 := by
    have hcount : (if ctx.buflen < 56 then 56 - ctx.buflen else 120 - ctx.buflen) = zeroCount message.length + 1 := by
      unfold zeroCount
      split <;> omega
    rw [hcount, List.take_succ_cons, List.take_replicate]
    congr 2
    unfold zeroCount
    omega
  have hbits : (ctx.total * 8).toNat = 8 * message.length := by
    rw [hstreams.counted, UInt64.toNat_mul, UInt64.toNat_ofNat']
    change message.length % 2 ^ 64 * 8 % 2 ^ 64 = _
    omega
  have hend := (hstreams.update (0x80 :: List.replicate (zeroCount message.length) 0)).update (leEncode 8 (8 * message.length))
  rw [List.append_assoc] at hend
  unfold final
  simp only [hpad, shiftedBytes_eq, hbits]
  have hwhole : 64 ∣ (padded message).length := by
    rw [length_padded]
    exact (zeroCount_spec message.length).1
  have habsorbed := hend.holds.absorbed
  change absorb transform 64 iv (padded message) = _ at habsorbed
  rw [absorb_of_dvd transform hwhole, Pending.mk.injEq] at habsorbed
  rw [habsorbed.1]

end Ripemd160

open Ripemd160

/-- `ripemd160`, with what stands in the buffer before it is written to. -/
def ripemd160 (buf data : Bytes) : Bytes := final (update (init buf) data)

/-- `ripemd160` is the fold of `rmd160_transform` over the blocks of the padded message, whose zeros are the fewest
    that fill its last block, and the message may come in any pieces. -/
theorem ripemd160_eq_fold {buf : Bytes} (hbuf : buf.length = 64) {message : Bytes} (hsize : message.length < 2 ^ 61) :
    ripemd160 buf message = digest (foldBlocks transform 64 ((padded message).length / 64) iv (padded message)) ∧
    (64 ∣ (padded message).length ∧ ∀ zeros, 64 ∣ message.length + 1 + zeros + 8 → zeroCount message.length ≤ zeros) ∧
    ∀ pieces : List Bytes, pieces.flatten = message → final (pieces.foldl update (init buf)) = ripemd160 buf message := by
  have hstart := init_streams hbuf
  have hwhole : ripemd160 buf message = _ := (hstart.update message).final_eq hsize
  refine ⟨hwhole, ?_, ?_⟩
  · rw [length_padded]
    exact zeroCount_spec message.length
  · intro pieces hpieces
    have hsplit := hstart.updates pieces
    rw [hpieces] at hsplit
    rw [hsplit.final_eq hsize, hwhole]

/-- A message that fills a block up to the place of its length. -/
theorem ripemd160_eq_fold_boundary : (List.replicate 64 (7 : UInt8)).length = 64 ∧ (List.replicate 56 (1 : UInt8)).length < 2 ^ 61 ∧
    final ([List.replicate 55 1, [1]].foldl update (init (List.replicate 64 7))) =
      ripemd160 (List.replicate 64 7) (List.replicate 56 1) := by
  have hbuf : (List.replicate 64 (7 : UInt8)).length = 64 := List.length_replicate
  have hsize : (List.replicate 56 (1 : UInt8)).length < 2 ^ 61 := by
    rw [List.length_replicate]
    decide
  have hpieces : [List.replicate 55 1, [1]].flatten = List.replicate 56 (1 : UInt8) := rfl
  exact ⟨hbuf, hsize, (ripemd160_eq_fold hbuf hsize).2.2 _ hpieces⟩

/-- The digest of the empty message. -/
example : ripemd160 (List.replicate 64 0) [] = [
    0x9c, 0x11, 0x85, 0xa5, 0xc5, 0xe9, 0xfc, 0x54, 0x61, 0x28, 0x08, 0x97, 0x7e, 0xe8, 0xf5, 0x48, 0xb2, 0x25, 0x8d, 0x31] := by
  decide +kernel

end cdx
