import Mathlib

namespace cdx

abbrev Bytes := List UInt8

/-- A 256-bit unsigned integer kept as four 64-bit words, least significant
    word first. Block hashes, targets and chain work all have this type. -/
@[ext]
structure UInt256 where
  w0 : UInt64
  w1 : UInt64
  w2 : UInt64
  w3 : UInt64
deriving DecidableEq, Repr, Inhabited

namespace UInt256

def zero : UInt256 := ⟨0, 0, 0, 0⟩

instance : Zero UInt256 := ⟨zero⟩

/-- The constructor from one 64-bit word. -/
def ofWord (v : UInt64) : UInt256 := ⟨v, 0, 0, 0⟩

/-- The word `w[i]`; the C++ never indexes past the fourth word. -/
def word (a : UInt256) : Nat → UInt64
  | 0 => a.w0
  | 1 => a.w1
  | 2 => a.w2
  | 3 => a.w3
  | _ => 0

def ofWords (f : Nat → UInt64) : UInt256 := ⟨f 0, f 1, f 2, f 3⟩

def isZero (a : UInt256) : Bool := (a.w0 ||| a.w1 ||| a.w2 ||| a.w3) == 0

/-- `operator<`: the words are compared from the most significant down. -/
def blt (a b : UInt256) : Bool :=
  if a.w3 ≠ b.w3 then a.w3 < b.w3
  else if a.w2 ≠ b.w2 then a.w2 < b.w2
  else if a.w1 ≠ b.w1 then a.w1 < b.w1
  else if a.w0 ≠ b.w0 then a.w0 < b.w0
  else false

instance : LT UInt256 := ⟨fun a b => a.blt b = true⟩
/-- `operator<=` is the negation of the swapped `operator<`. -/
instance : LE UInt256 := ⟨fun a b => ¬ b < a⟩
instance (a b : UInt256) : Decidable (a < b) := inferInstanceAs (Decidable (a.blt b = true))
instance (a b : UInt256) : Decidable (a ≤ b) := inferInstanceAs (Decidable (¬ b < a))

def shiftLeft (a : UInt256) (n : Nat) : UInt256 :=
  if n ≥ 256 then 0
  else
    let wordShift := n / 64
    let bitShift := n % 64
    ofWords fun i =>
      if i < wordShift then 0
      else
        let src := i - wordShift
        let low := a.word src <<< UInt64.ofNat bitShift
        if bitShift ≠ 0 ∧ 1 ≤ src then low ||| (a.word (src - 1) >>> UInt64.ofNat (64 - bitShift)) else low

def shiftRight (a : UInt256) (n : Nat) : UInt256 :=
  if n ≥ 256 then 0
  else
    let wordShift := n / 64
    let bitShift := n % 64
    ofWords fun i =>
      let src := i + wordShift
      if 4 ≤ src then 0
      else
        let low := a.word src >>> UInt64.ofNat bitShift
        if bitShift ≠ 0 ∧ src + 1 < 4 then low ||| (a.word (src + 1) <<< UInt64.ofNat (64 - bitShift)) else low

/-- One step of the carry loop of `operator+`: the low word of the 128-bit sum
    and the carry out. -/
def addWord (x y : UInt64) (carry : Nat) : UInt64 × Nat :=
  let s := x.toNat + y.toNat + carry
  (UInt64.ofNat s, s >>> 64)

def add (a b : UInt256) : UInt256 :=
  let s0 := addWord a.w0 b.w0 0
  let s1 := addWord a.w1 b.w1 s0.2
  let s2 := addWord a.w2 b.w2 s1.2
  let s3 := addWord a.w3 b.w3 s2.2
  ⟨s0.1, s1.1, s2.1, s3.1⟩

instance : Add UInt256 := ⟨add⟩

/-- One step of the borrow loop of `operator-`. -/
def subWord (x y : UInt64) (borrow : Nat) : UInt64 × Nat :=
  (x - y - UInt64.ofNat borrow, if x.toNat < y.toNat + borrow then 1 else 0)

def sub (a b : UInt256) : UInt256 :=
  let s0 := subWord a.w0 b.w0 0
  let s1 := subWord a.w1 b.w1 s0.2
  let s2 := subWord a.w2 b.w2 s1.2
  let s3 := subWord a.w3 b.w3 s2.2
  ⟨s0.1, s1.1, s2.1, s3.1⟩

instance : Sub UInt256 := ⟨sub⟩

def mulWord (x m : UInt64) (carry : Nat) : UInt64 × Nat :=
  let p := x.toNat * m.toNat + carry
  (UInt64.ofNat p, p >>> 64)

/-- The product with a 64-bit word, cut to 256 bits. -/
def mul64 (a : UInt256) (m : UInt64) : UInt256 :=
  let p0 := mulWord a.w0 m 0
  let p1 := mulWord a.w1 m p0.2
  let p2 := mulWord a.w2 m p1.2
  let p3 := mulWord a.w3 m p2.2
  ⟨p0.1, p1.1, p2.1, p3.1⟩

def divWord (acc : Nat) (x d : UInt64) : UInt64 × Nat :=
  let acc := acc <<< 64 ||| x.toNat
  (UInt64.ofNat (acc / d.toNat), acc % d.toNat)

/-- The quotient by a 64-bit word, long division from the top word down. -/
def div64 (a : UInt256) (d : UInt64) : UInt256 :=
  let q3 := divWord 0 a.w3 d
  let q2 := divWord q3.2 a.w2 d
  let q1 := divWord q2.2 a.w1 d
  let q0 := divWord q1.2 a.w0 d
  ⟨q0.1, q1.1, q2.1, q3.1⟩

/-- What `div64` stores through its second argument. -/
def div64Rem (a : UInt256) (d : UInt64) : UInt64 :=
  let q3 := divWord 0 a.w3 d
  let q2 := divWord q3.2 a.w2 d
  let q1 := divWord q2.2 a.w1 d
  let q0 := divWord q1.2 a.w0 d
  UInt64.ofNat q0.2

def setBit (a : UInt256) (n : Nat) : UInt256 :=
  ofWords fun i => if i = n / 64 then a.word i ||| ((1 : UInt64) <<< UInt64.ofNat (n % 64)) else a.word i

/-- The inner loop of `highestBit` over one word, from bit `b - 1` down. -/
def highestBitOfWord (x : UInt64) : Nat → Option Nat
  | 0 => none
  | b + 1 => if (x >>> UInt64.ofNat b) &&& 1 = 1 then some b else highestBitOfWord x b

def highestBitFrom (a : UInt256) : Nat → Option Nat
  | 0 => none
  | i + 1 =>
    match highestBitOfWord (a.word i) 64 with
    | some b => some (i * 64 + b)
    | none => highestBitFrom a i

/-- `highestBit() + 1`, where the C++ returns `-1` for zero. -/
def getBitLength (a : UInt256) : Nat :=
  match highestBitFrom a 4 with
  | some b => b + 1
  | none => 0

def getCompact (a : UInt256) : UInt32 :=
  let nSize := (a.getBitLength + 7) / 8
  if nSize = 0 then 0
  else
    let nCompact : UInt32 :=
      if nSize ≤ 3 then a.w0.toUInt32 <<< UInt32.ofNat (8 * (3 - nSize))
      else (a.shiftRight (8 * (nSize - 3))).w0.toUInt32
    if nCompact &&& 0x00800000 ≠ 0 then (nCompact >>> 8) ||| (UInt32.ofNat (nSize + 1) <<< 24)
    else nCompact ||| (UInt32.ofNat nSize <<< 24)

def setCompact (nCompact : UInt32) : UInt256 :=
  let nSize := (nCompact >>> 24).toNat
  let nWord := nCompact &&& 0x007fffff
  if nSize ≤ 3 then ofWord (nWord >>> UInt32.ofNat (8 * (3 - nSize))).toUInt64
  else (ofWord nWord.toUInt64).shiftLeft (8 * (nSize - 3))

/-- The shift-and-subtract loop of `pow2_256_div` over the bits below `bit`. -/
def pow2DivLoop (d : UInt256) : Nat → UInt256 → UInt256 → UInt256
  | 0, _, q => q
  | bit + 1, rem, q =>
    let rem := rem.shiftLeft 1
    if d ≤ rem then pow2DivLoop d bit (rem - d) (q.setBit bit) else pow2DivLoop d bit rem q

def pow2Div (d : UInt256) : UInt256 := if d.isZero then 0 else pow2DivLoop d 256 (ofWord 1) 0

/-- Chain work of a target: `2^256 / (target + 1)`. -/
def chainWorkOfTarget (target : UInt256) : UInt256 := pow2Div (target + ofWord 1)

/-- The number the four words stand for. -/
def toNat (a : UInt256) : Nat :=
  a.w0.toNat + 2 ^ 64 * a.w1.toNat + 2 ^ 128 * a.w2.toNat + 2 ^ 192 * a.w3.toNat

theorem toNat_lt (a : UInt256) : a.toNat < 2 ^ 256 := by
  have h0 := a.w0.toNat_lt
  have h1 := a.w1.toNat_lt
  have h2 := a.w2.toNat_lt
  have h3 := a.w3.toNat_lt
  simp only [toNat]
  omega

theorem toNat_injective : Function.Injective toNat := by
  intro a b hab
  have ha0 := a.w0.toNat_lt
  have ha1 := a.w1.toNat_lt
  have ha2 := a.w2.toNat_lt
  have hb0 := b.w0.toNat_lt
  have hb1 := b.w1.toNat_lt
  have hb2 := b.w2.toNat_lt
  simp only [toNat] at hab
  ext1 <;> apply UInt64.toNat_inj.mp <;> omega

/-- The word-by-word comparison is the comparison of numbers. -/
theorem lt_iff_toNat_lt {a b : UInt256} : a < b ↔ a.toNat < b.toNat := by
  have ha0 := a.w0.toNat_lt
  have ha1 := a.w1.toNat_lt
  have ha2 := a.w2.toNat_lt
  have hb0 := b.w0.toNat_lt
  have hb1 := b.w1.toNat_lt
  have hb2 := b.w2.toNat_lt
  change a.blt b = true ↔ _
  simp only [blt, toNat, ne_eq, ← UInt64.toNat_inj]
  split
  · simp only [UInt64.lt_iff_toNat_lt, decide_eq_true_eq]
    omega
  · split
    · simp only [UInt64.lt_iff_toNat_lt, decide_eq_true_eq]
      omega
    · split
      · simp only [UInt64.lt_iff_toNat_lt, decide_eq_true_eq]
        omega
      · split
        · simp only [UInt64.lt_iff_toNat_lt, decide_eq_true_eq]
          omega
        · simp only [Bool.false_eq_true, false_iff]
          omega

theorem le_iff_toNat_le {a b : UInt256} : a ≤ b ↔ a.toNat ≤ b.toNat := by
  change ¬ b < a ↔ _
  rw [lt_iff_toNat_lt, not_lt]

/-- The key order of `std::map<uint256, …>` comes with the order. -/
instance : LinearOrder UInt256 where
  le_refl a := le_iff_toNat_le.mpr (Nat.le_refl _)
  le_trans a b c hab hbc :=
    le_iff_toNat_le.mpr (Nat.le_trans (le_iff_toNat_le.mp hab) (le_iff_toNat_le.mp hbc))
  lt_iff_le_not_ge a b := by
    rw [lt_iff_toNat_lt, le_iff_toNat_le, le_iff_toNat_le]
    omega
  le_antisymm a b hab hba :=
    toNat_injective (Nat.le_antisymm (le_iff_toNat_le.mp hab) (le_iff_toNat_le.mp hba))
  le_total a b := by
    rw [le_iff_toNat_le, le_iff_toNat_le]
    exact Nat.le_total _ _
  toDecidableLE := inferInstance
  toDecidableLT := inferInstance
  toDecidableEq := inferInstance

instance : Std.TransOrd UInt256 := inferInstance

instance : Std.LawfulEqOrd UInt256 := ⟨fun h => compare_eq_iff_eq.mp h⟩

private theorem addWord_spec (x y : UInt64) (carry : Nat) :
    (addWord x y carry).1.toNat + 2 ^ 64 * (addWord x y carry).2 = x.toNat + y.toNat + carry := by
  simp only [addWord, UInt64.toNat_ofNat', Nat.shiftRight_eq_div_pow]
  omega

/-- The carry loop adds modulo `2^256`. -/
theorem add_toNat (a b : UInt256) : (a + b).toNat = (a.toNat + b.toNat) % 2 ^ 256 := by
  have h0 := addWord_spec a.w0 b.w0 0
  have h1 := addWord_spec a.w1 b.w1 (addWord a.w0 b.w0 0).2
  have h2 := addWord_spec a.w2 b.w2 (addWord a.w1 b.w1 (addWord a.w0 b.w0 0).2).2
  have h3 := addWord_spec a.w3 b.w3
    (addWord a.w2 b.w2 (addWord a.w1 b.w1 (addWord a.w0 b.w0 0).2).2).2
  have hlt := (a + b).toNat_lt
  rw [show a + b = add a b from rfl] at hlt ⊢
  simp only [toNat, add] at hlt ⊢
  omega

theorem zero_add (a : UInt256) : 0 + a = a := by
  apply toNat_injective
  have hzero : (0 : UInt256).toNat = 0 := rfl
  rw [add_toNat, hzero, Nat.zero_add, Nat.mod_eq_of_lt a.toNat_lt]

end UInt256

end cdx
