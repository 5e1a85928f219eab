import Mathlib

namespace codec

/-- The `width` low bytes of a number, least significant byte first. -/
def leEncode : Nat → Nat → List UInt8
  | 0, _ => []
  | width + 1, n => UInt8.ofNat n :: leEncode width (n / 256)

/-- The number written by a list of bytes, least significant byte first. -/
def leDecode : List UInt8 → Nat
  | [] => 0
  | b :: bs => b.toNat + 256 * leDecode bs

@[simp] theorem length_leEncode (width n : Nat) : (leEncode width n).length = width := by
  induction width generalizing n with
  | zero => rfl
  | succ width ih => simp [leEncode, ih]

theorem leDecode_leEncode (width n : Nat) : leDecode (leEncode width n) = n % 256 ^ width := by
  induction width generalizing n with
  | zero => simp [leEncode, leDecode, Nat.mod_one]
  | succ width ih =>
    simp only [leEncode, leDecode, ih, UInt8.toNat_ofNat']
    rw [Nat.pow_succ 256 width, Nat.mul_comm (256 ^ width) 256, Nat.mod_mul]

theorem leDecode_leEncode_of_lt {width n : Nat} (hn : n < 256 ^ width) :
    leDecode (leEncode width n) = n := by
  rw [leDecode_leEncode, Nat.mod_eq_of_lt hn]

theorem leEncode_leDecode (bytes : List UInt8) : leEncode bytes.length (leDecode bytes) = bytes := by
  induction bytes with
  | nil => rfl
  | cons b rest ih =>
    have hb := b.toNat_lt
    have hhead : UInt8.ofNat (b.toNat + 256 * leDecode rest) = b := by
      apply UInt8.toNat_inj.mp
      rw [UInt8.toNat_ofNat']
      omega
    have htail : (b.toNat + 256 * leDecode rest) / 256 = leDecode rest := by omega
    rw [List.length_cons, leDecode, leEncode, hhead, htail, ih]

theorem leDecode_lt (bytes : List UInt8) : leDecode bytes < 256 ^ bytes.length := by
  induction bytes with
  | nil => simp [leDecode]
  | cons b rest ih =>
    have hb := b.toNat_lt
    rw [leDecode, List.length_cons, Nat.pow_succ]
    omega

theorem leDecode_append (xs ys : List UInt8) : leDecode (xs ++ ys) = leDecode xs + 256 ^ xs.length * leDecode ys := by
  induction xs with
  | nil => simp [leDecode]
  | cons x xs ih =>
    rw [List.cons_append, leDecode, leDecode, ih, List.length_cons, Nat.pow_succ]
    ring

theorem leEncode_eq_map (width n : Nat) :
    leEncode width n = (List.range width).map fun i => UInt8.ofNat (n / 256 ^ i) := by
  induction width generalizing n with
  | zero => rfl
  | succ width ih =>
    rw [leEncode, ih, List.range_succ_eq_map, List.map_cons, List.map_map, Nat.pow_zero, Nat.div_one]
    refine congrArg _ (List.map_congr_left fun i _ => ?_)
    rw [Function.comp_apply, Nat.succ_eq_add_one, Nat.pow_succ', Nat.div_div_eq_div_mul]

/-- A position in a buffer that is read from left to right. -/
structure Cursor (β : Type) where
  buf : List β
  pos : Nat
deriving DecidableEq

namespace Cursor

variable {β : Type}

def remaining (c : Cursor β) : Nat := c.buf.length - c.pos

end Cursor

/-- A decoder takes a value off a cursor or fails. -/
abbrev Decoder (β α : Type) := StateT (Cursor β) Option α

variable {β α γ : Type}

/-- `n` elements from the cursor on, when the buffer still holds them. -/
def take (n : Nat) : Decoder β (List β) := fun c =>
  if c.pos + n > c.buf.length then none else some ((c.buf.drop c.pos).take n, ⟨c.buf, c.pos + n⟩)

/-- A decoder run a fixed number of times. -/
def many (d : Decoder β α) : Nat → Decoder β (List α)
  | 0 => pure []
  | n + 1 => do
    let a ← d
    let rest ← many d n
    pure (a :: rest)

/-- The decoder takes exactly `input` off the cursor, whatever surrounds it,
    and returns `a`. -/
def Reads (d : Decoder β α) (input : List β) (a : α) : Prop :=
  ∀ before after, d.run ⟨before ++ (input ++ after), before.length⟩ =
    some (a, ⟨before ++ (input ++ after), before.length + input.length⟩)

theorem reads_pure (a : α) : Reads (pure a : Decoder β α) [] a := by
  intro before after
  rfl

theorem Reads.bind {d : Decoder β α} {f : α → Decoder β γ} {xs ys : List β} {a : α} {b : γ}
    (hd : Reads d xs a) (hf : Reads (f a) ys b) : Reads (d >>= f) (xs ++ ys) b := by
  intro before after
  have hfirst := hd before (ys ++ after)
  have hsecond := hf (before ++ xs) after
  simp only [List.append_assoc, List.length_append] at hfirst hsecond ⊢
  simp only [StateT.run_bind, hfirst, Option.bind_eq_bind, Option.bind_some, hsecond, Nat.add_assoc]

/-- A last step that only wraps the value reads nothing more. -/
theorem Reads.bind_pure {d : Decoder β α} {xs : List β} {a : α} (hd : Reads d xs a) (g : α → γ) :
    Reads (d >>= fun x => pure (g x)) xs (g a) := by
  intro before after
  simp only [StateT.run_bind, hd before after, Option.bind_eq_bind, Option.bind_some, StateT.run_pure,
    Option.pure_def]

theorem Reads.map {d : Decoder β α} {xs : List β} {a : α} (hd : Reads d xs a) (g : α → γ) :
    Reads (g <$> d) xs (g a) := by
  intro before after
  simp [StateT.run_map, hd before after]

/-- A limit on the value read leaves a value below it as it is. -/
theorem Reads.atMost {d : Decoder β Nat} {xs : List β} {n limit : Nat} (hd : Reads d xs n) (hn : n ≤ limit) :
    Reads (do
      let n ← d
      if n > limit then failure
      pure n) xs n := by
  intro before after
  simp only [StateT.run_bind, hd before after, Option.bind_eq_bind, Option.bind_some, if_neg (not_lt.mpr hn),
    StateT.run_pure, Option.pure_def]

theorem reads_take {n : Nat} {xs : List β} (hlength : xs.length = n) : Reads (take n) xs xs := by
  intro before after
  have hroom : ¬ before.length + n > (before ++ (xs ++ after)).length := by
    simp only [List.length_append]
    omega
  simp only [StateT.run, take, if_neg hroom, List.drop_left]
  rw [List.take_left' hlength, hlength]

theorem reads_many {d : Decoder β α} {encode : α → List β} {values : List α}
    (hd : ∀ a ∈ values, Reads d (encode a) a) :
    Reads (many d values.length) (values.flatMap encode) values := by
  induction values with
  | nil => exact reads_pure []
  | cons a rest ih =>
    have hhead := hd a (by simp)
    have htail := ih (fun x hx => hd x (by simp [hx]))
    exact Reads.bind (f := fun a => many d rest.length >>= fun rest => pure (a :: rest)) hhead
      (htail.bind_pure fun rest => a :: rest)

/-- A decoder that reads the encodings of two values from one input returns
    one value, so encodings read by a common decoder are never equal. -/
theorem Reads.injective {d : Decoder β α} {xs : List β} {a b : α}
    (ha : Reads d xs a) (hb : Reads d xs b) : a = b := by
  have hsame := (ha [] []).symm.trans (hb [] [])
  simpa using hsame

/-- Reading from the start of a buffer that begins with the encoding. -/
theorem Reads.run_start {d : Decoder β α} {xs : List β} {a : α} (hd : Reads d xs a) (after : List β) :
    d.run ⟨xs ++ after, 0⟩ = some (a, ⟨xs ++ after, xs.length⟩) := by
  simpa using hd [] after

theorem run_bind_eq_some {d : Decoder β α} {f : α → Decoder β γ} {c c'' : Cursor β} {b : γ}
    (hrun : (d >>= f).run c = some (b, c'')) : ∃ a c', d.run c = some (a, c') ∧ (f a).run c' = some (b, c'') := by
  rw [StateT.run_bind, Option.bind_eq_bind, Option.bind_eq_some_iff] at hrun
  obtain ⟨⟨a, c'⟩, hd, hf⟩ := hrun
  exact ⟨a, c', hd, hf⟩

/-- What passes a limit was read as it is. -/
theorem run_atMost_eq_some {d : Decoder β Nat} {limit n : Nat} {c c' : Cursor β}
    (hrun : StateT.run (do
      let n ← d
      if n > limit then failure
      pure n) c = some (n, c')) : n ≤ limit ∧ d.run c = some (n, c') := by
  obtain ⟨m, mid, hd, htail⟩ := run_bind_eq_some hrun
  by_cases hlarge : m > limit
  · simp only [if_pos hlarge] at htail
    cases htail
  · simp only [if_neg hlarge] at htail
    cases htail
    exact ⟨not_lt.mp hlarge, hd⟩

theorem run_map_eq_some {d : Decoder β α} {g : α → γ} {c c' : Cursor β} {b : γ}
    (hrun : (g <$> d).run c = some (b, c')) : ∃ a, d.run c = some (a, c') ∧ g a = b := by
  rw [StateT.run_map, Option.map_eq_map, Option.map_eq_some_iff] at hrun
  obtain ⟨⟨a, c''⟩, hd, hg⟩ := hrun
  cases hg
  exact ⟨a, hd, rfl⟩

/-- Between the two cursors lie exactly these elements. -/
structure Took (c c' : Cursor β) (xs : List β) : Prop where
  buf : c'.buf = c.buf
  pos : c'.pos = c.pos + xs.length
  rest : c.buf.drop c.pos = xs ++ c.buf.drop c'.pos

theorem Took.refl (c : Cursor β) : Took c c [] := ⟨rfl, rfl, rfl⟩

theorem Took.trans {c c' c'' : Cursor β} {xs ys : List β} (hxs : Took c c' xs) (hys : Took c' c'' ys) :
    Took c c'' (xs ++ ys) := by
  refine ⟨hys.buf.trans hxs.buf, ?_, ?_⟩
  · rw [hys.pos, hxs.pos, List.length_append, Nat.add_assoc]
  · have hrest := hys.rest
    rw [hxs.buf] at hrest
    rw [hxs.rest, hrest, List.append_assoc]

/-- What is taken off the start of a buffer is a prefix of it. -/
theorem Took.take_eq {buf xs : List β} {c' : Cursor β} (htook : Took ⟨buf, 0⟩ c' xs) : xs = buf.take c'.pos := by
  have hrest : buf = xs ++ buf.drop c'.pos := htook.rest
  have hpos : c'.pos = xs.length := htook.pos.trans (Nat.zero_add _)
  rw [hrest, hpos, List.take_left]

/-- The decoder takes off the cursor exactly the encoding of what it returns. -/
def Exact (d : Decoder β α) (encode : α → List β) : Prop :=
  ∀ c a c', d.run c = some (a, c') → Took c c' (encode a)

theorem take_eq_some {n : Nat} {c c' : Cursor β} {xs : List β} (hrun : (take n).run c = some (xs, c')) :
    xs.length = n ∧ Took c c' xs := by
  rw [StateT.run, take] at hrun
  split at hrun
  · cases hrun
  next hroom =>
    cases hrun
    have hlength : ((c.buf.drop c.pos).take n).length = n := by
      rw [List.length_take, List.length_drop]
      omega
    refine ⟨hlength, rfl, ?_, ?_⟩
    · rw [hlength]
    · rw [← List.drop_drop, List.take_append_drop]

/-- One round more: the first value and the others. -/
theorem many_succ_eq_some {d : Decoder β α} {n : Nat} {c c' : Cursor β} {values : List α}
    (hrun : (many d (n + 1)).run c = some (values, c')) :
    ∃ a mid rest, values = a :: rest ∧ d.run c = some (a, mid) ∧ (many d n).run mid = some (rest, c') := by
  obtain ⟨a, mid, ha, htail⟩ := run_bind_eq_some hrun
  obtain ⟨rest, last, hrest, hpure⟩ := run_bind_eq_some htail
  cases hpure
  exact ⟨a, mid, rest, rfl, ha, hrest⟩

theorem length_many {d : Decoder β α} {n : Nat} {c c' : Cursor β} {values : List α}
    (hrun : (many d n).run c = some (values, c')) : values.length = n := by
  induction n generalizing c values with
  | zero =>
    cases hrun
    rfl
  | succ n ih =>
    obtain ⟨a, mid, rest, rfl, -, hrest⟩ := many_succ_eq_some hrun
    rw [List.length_cons, ih hrest]

/-- What holds of every value the decoder returns holds of all of them. -/
theorem forall_many {d : Decoder β α} {P : α → Prop} (hd : ∀ c r, d.run c = some r → P r.1) {n : Nat} {c c' : Cursor β}
    {values : List α} (hrun : (many d n).run c = some (values, c')) : ∀ a ∈ values, P a := by
  induction n generalizing c values with
  | zero =>
    cases hrun
    intro a ha
    cases ha
  | succ n ih =>
    obtain ⟨a, mid, rest, rfl, ha, hrest⟩ := many_succ_eq_some hrun
    exact List.forall_mem_cons.mpr ⟨hd c _ ha, ih hrest⟩

theorem exact_many {d : Decoder β α} {encode : α → List β} (hd : Exact d encode) (n : Nat) :
    Exact (many d n) (List.flatMap encode) := by
  intro c values c' hrun
  induction n generalizing c values with
  | zero =>
    cases hrun
    exact Took.refl _
  | succ n ih =>
    obtain ⟨a, mid, rest, rfl, ha, hrest⟩ := many_succ_eq_some hrun
    rw [List.flatMap_cons]
    exact (hd c a mid ha).trans (ih mid rest hrest)

/-- Every result of the first decoder is one of the second. -/
def Refines (d d' : Decoder β α) : Prop := ∀ c r, d.run c = some r → d'.run c = some r

theorem Refines.refl (d : Decoder β α) : Refines d d := fun _ _ hrun => hrun

theorem Refines.bind {d d' : Decoder β α} {f f' : α → Decoder β γ} (hd : Refines d d')
    (hf : ∀ a, Refines (f a) (f' a)) : Refines (d >>= f) (d' >>= f') := by
  intro c r hrun
  obtain ⟨b, c''⟩ := r
  obtain ⟨a, c', ha, hb⟩ := run_bind_eq_some hrun
  rw [StateT.run_bind, hd c _ ha, Option.bind_eq_bind, Option.bind_some]
  exact hf a c' _ hb

theorem Refines.many {d d' : Decoder β α} (hd : Refines d d') (n : Nat) : Refines (many d n) (many d' n) := by
  induction n with
  | zero => exact Refines.refl _
  | succ n ih => exact hd.bind fun a => ih.bind fun _ => Refines.refl _

end codec
