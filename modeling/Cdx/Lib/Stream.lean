import Mathlib

namespace stream

variable {β : Type}

/-- A binary input stream: the bytes ahead, and whether no read has come up short. -/
structure InStream (β : Type) where
  rest : List β
  good : Bool := true

/-- A read of `n` bytes into a buffer. A short read fills the front of the buffer
    and fails the stream; a read on a failed stream leaves the buffer as it is. -/
def read (n : Nat) (buf : List β) (s : InStream β) : List β × InStream β :=
  if s.good then
    (s.rest.take n ++ buf.drop (s.rest.take n).length, ⟨s.rest.drop n, decide (n ≤ s.rest.length)⟩)
  else (buf, s)

/-- A read keeps the size of a buffer that can hold it. -/
theorem length_read {n : Nat} {buf : List β} (hbuf : n ≤ buf.length) (s : InStream β) :
    (read n buf s).1.length = buf.length := by
  unfold read
  split
  · simp only [List.length_append, List.length_take, List.length_drop]
    omega
  · rfl

/-- A read with its bytes ahead takes exactly them and stays good. -/
theorem read_append {n : Nat} {xs : List β} (hxs : xs.length = n) (buf after : List β) :
    read n buf ⟨xs ++ after, true⟩ = (xs ++ buf.drop n, ⟨after, true⟩) := by
  subst hxs
  simp [read]

/-- The same for a buffer of exactly the size read. -/
theorem read_append_exact {n : Nat} {xs buf : List β} (hxs : xs.length = n) (hbuf : buf.length = n)
    (after : List β) : read n buf ⟨xs ++ after, true⟩ = (xs, ⟨after, true⟩) := by
  rw [read_append hxs, ← hbuf, List.drop_length, List.append_nil]

/-- A failed stream gives nothing any more. -/
theorem read_failed (n : Nat) (buf rest : List β) : read n buf ⟨rest, false⟩ = (buf, ⟨rest, false⟩) := rfl

/-- A read that the cut of the stream leaves whole. -/
theorem read_take_of_le {n k : Nat} {xs : List β} (hxs : xs.length = n) (hk : n ≤ k) (buf after : List β) :
    read n buf ⟨(xs ++ after).take k, true⟩ = (xs ++ buf.drop n, ⟨after.take (k - n), true⟩) := by
  rw [List.take_append, hxs, List.take_of_length_le (by omega), read_append hxs]

/-- A read that the cut of the stream falls into: the buffer keeps its end. -/
theorem read_take_of_lt {n k : Nat} {xs : List β} (hxs : xs.length = n) (hk : k < n) (buf after : List β) :
    read n buf ⟨(xs ++ after).take k, true⟩ = (xs.take k ++ buf.drop k, ⟨[], false⟩) := by
  have hcut : (xs ++ after).take k = xs.take k := List.take_append_of_le_length (by omega)
  have hlength : (xs.take k).length = k := by rw [List.length_take]; omega
  have hnone : (xs.take k).drop n = [] := List.drop_eq_nil_of_le (by omega)
  rw [hcut, read, if_pos rfl]
  simp only
  rw [List.take_of_length_le (by omega), hlength, hnone, decide_eq_false (by omega)]

/-- The buffer with some bytes copied over it from an offset on. -/
def overwrite (buf : List β) (off : Nat) (new : List β) : List β := buf.take off ++ (new ++ buf.drop (off + new.length))

theorem overwrite_append {pre old : List β} {off : Nat} (hpre : pre.length = off) {new : List β}
    (hnew : old.length = new.length) (after : List β) :
    overwrite (pre ++ (old ++ after)) off new = pre ++ (new ++ after) := by
  rw [overwrite, List.take_left' hpre, ← hpre, ← hnew, ← List.drop_drop, List.drop_left, List.drop_left]

/-- Behind a first part, bytes are copied within the second. -/
theorem overwrite_append_right {pre : List β} {off : Nat} (hpre : pre.length ≤ off) (rest new : List β) :
    overwrite (pre ++ rest) off new = pre ++ overwrite rest (off - pre.length) new := by
  rw [overwrite, overwrite, List.take_append, List.take_of_length_le hpre, List.drop_append,
    List.drop_eq_nil_of_le (by omega), List.nil_append, List.append_assoc,
    show off + new.length - pre.length = off - pre.length + new.length by omega]

section Segments

/-- A segment of a file: its bytes, whether they are read into the buffer that all such
    segments share, and what the reader demands of them before it reads on. -/
structure Segment (β : Type) where
  bytes : List β
  kept : Bool
  check : List β → Bool := fun _ => true

/-- The shared buffer after a segment. -/
def Segment.fill (buf : List β) (f : Segment β) : List β := if f.kept then f.bytes ++ buf.drop f.bytes.length else buf

/-- The bytes of some segments, one after the other. -/
def fileOf (segments : List (Segment β)) : List β := segments.flatMap Segment.bytes

/-- Reads of the sizes of the segments: the shared buffer and the stream after them. -/
def skim : List (Segment β) → List β → InStream β → List β × InStream β
  | [], buf, s => (buf, s)
  | f :: rest, buf, s =>
    skim rest (if f.kept then (read f.bytes.length buf s).1 else buf) (read f.bytes.length buf s).2

/-- What a file that ends after `k` bytes has of its segments: whole ones, and the front of
    the one that the end falls into. -/
def cut : List (Segment β) → Nat → List (Segment β)
  | [], _ => []
  | f :: rest, k =>
    if f.bytes.length ≤ k then f :: cut rest (k - f.bytes.length) else [{ f with bytes := f.bytes.take k }]

theorem fileOf_cons (f : Segment β) (rest : List (Segment β)) : fileOf (f :: rest) = f.bytes ++ fileOf rest :=
  List.flatMap_cons

theorem fileOf_append (segments rest : List (Segment β)) : fileOf (segments ++ rest) = fileOf segments ++ fileOf rest :=
  List.flatMap_append

/-- Where a read leaves the stream does not depend on the buffer. -/
theorem read_snd (n : Nat) (buf buf' : List β) (s : InStream β) : (read n buf s).2 = (read n buf' s).2 := by
  unfold read
  split <;> rfl

theorem skim_failed (segments : List (Segment β)) (buf rest : List β) : skim segments buf ⟨rest, false⟩ = (buf, ⟨rest, false⟩) := by
  induction segments with
  | nil => rfl
  | cons f segments ih =>
    rw [skim, read_failed, ite_self]
    exact ih

/-- A segment no longer than the buffer leaves its length as it is. -/
theorem Segment.length_fill {buf : List β} {f : Segment β} (hf : f.kept = true → f.bytes.length ≤ buf.length) :
    (f.fill buf).length = buf.length := by
  unfold fill
  split
  next hkept =>
    have hle := hf hkept
    rw [List.length_append, List.length_drop]
    omega
  · rfl

theorem length_foldl_fill {segments : List (Segment β)} {buf : List β}
    (hfit : ∀ f ∈ segments, f.kept = true → f.bytes.length ≤ buf.length) :
    (segments.foldl Segment.fill buf).length = buf.length := by
  induction segments generalizing buf with
  | nil => rfl
  | cons f segments ih =>
    obtain ⟨hf, hrest⟩ := List.forall_mem_cons.mp hfit
    have hlength := Segment.length_fill hf
    rw [List.foldl_cons, ih (by rwa [hlength]), hlength]

/-- Segments that are read elsewhere leave the buffer, whole or cut. -/
theorem foldl_fill_of_not_kept {segments : List (Segment β)} (helsewhere : ∀ f ∈ segments, f.kept = false) (buf : List β) :
    segments.foldl Segment.fill buf = buf := by
  induction segments with
  | nil => rfl
  | cons f segments ih =>
    obtain ⟨hf, hrest⟩ := List.forall_mem_cons.mp helsewhere
    rw [List.foldl_cons, Segment.fill, hf, if_neg Bool.false_ne_true, ih hrest]

theorem foldl_fill_cut_of_not_kept {segments : List (Segment β)} (helsewhere : ∀ f ∈ segments, f.kept = false) (k : Nat)
    (buf : List β) : (cut segments k).foldl Segment.fill buf = buf := by
  induction segments generalizing k with
  | nil => rfl
  | cons f segments ih =>
    obtain ⟨hf, hrest⟩ := List.forall_mem_cons.mp helsewhere
    rw [cut]
    split
    · rw [List.foldl_cons, Segment.fill, hf, if_neg Bool.false_ne_true, ih hrest]
    · exact if_neg (hf.trans_ne Bool.false_ne_true)

/-- A last segment of the buffer's size is all that the buffer holds. -/
theorem foldl_fill_concat {segments : List (Segment β)} {buf : List β}
    (hfit : ∀ f ∈ segments, f.kept = true → f.bytes.length ≤ buf.length) {last : Segment β} (hkept : last.kept = true)
    (hlast : last.bytes.length = buf.length) : (segments ++ [last]).foldl Segment.fill buf = last.bytes := by
  have hlength := length_foldl_fill hfit
  rw [List.foldl_append, List.foldl_cons, List.foldl_nil, Segment.fill, if_pos hkept,
    List.drop_of_length_le (by omega), List.append_nil]

/-- The reads of segments that the cut of the stream leaves whole. -/
theorem skim_take_of_le {segments : List (Segment β)} {k : Nat} (hk : (fileOf segments).length ≤ k) (buf after : List β) :
    skim segments buf ⟨(fileOf segments ++ after).take k, true⟩ =
      (segments.foldl Segment.fill buf, ⟨after.take (k - (fileOf segments).length), true⟩) := by
  induction segments generalizing buf k with
  | nil => rfl
  | cons f segments ih =>
    rw [fileOf_cons, List.length_append] at hk
    rw [skim, fileOf_cons, List.append_assoc, read_take_of_le rfl (by omega)]
    simp only
    rw [ih (by omega), List.foldl_cons, List.length_append, Nat.sub_sub]
    rfl

/-- The reads of segments that the cut of the stream falls into. -/
theorem skim_take_of_lt {segments : List (Segment β)} {k : Nat} (hk : k < (fileOf segments).length) (buf after : List β) :
    skim segments buf ⟨(fileOf segments ++ after).take k, true⟩ = ((cut segments k).foldl Segment.fill buf, ⟨[], false⟩) := by
  induction segments generalizing buf k with
  | nil => exact absurd hk (Nat.not_lt_zero k)
  | cons f segments ih =>
    rw [fileOf_cons, List.length_append] at hk
    rw [skim, cut, fileOf_cons, List.append_assoc]
    by_cases hwhole : f.bytes.length ≤ k
    · rw [if_pos hwhole, read_take_of_le rfl hwhole, List.foldl_cons]
      simp only
      rw [ih (by omega)]
      rfl
    · have hlength : (f.bytes.take k).length = k := by rw [List.length_take]; omega
      rw [if_neg hwhole, read_take_of_lt rfl (by omega), List.foldl_cons]
      simp only [skim_failed, List.foldl_nil]
      rw [Segment.fill, hlength]

theorem cut_append_of_le {segments : List (Segment β)} {k : Nat} (hk : (fileOf segments).length ≤ k) (rest : List (Segment β)) :
    cut (segments ++ rest) k = segments ++ cut rest (k - (fileOf segments).length) := by
  induction segments generalizing k with
  | nil => rfl
  | cons f segments ih =>
    rw [fileOf_cons, List.length_append] at hk
    rw [List.cons_append, cut, if_pos (by omega), ih (by omega), fileOf_cons, List.length_append, Nat.sub_sub]
    rfl

theorem cut_append_of_lt {segments : List (Segment β)} {k : Nat} (hk : k < (fileOf segments).length) (rest : List (Segment β)) :
    cut (segments ++ rest) k = cut segments k := by
  induction segments generalizing k with
  | nil => exact absurd hk (Nat.not_lt_zero k)
  | cons f segments ih =>
    rw [fileOf_cons, List.length_append] at hk
    rw [List.cons_append, cut, cut]
    split
    · rw [ih (by omega)]
    · rfl

theorem cut_ne_nil {segments : List (Segment β)} {k : Nat} (hk : k < (fileOf segments).length) : cut segments k ≠ [] := by
  cases segments with
  | nil => exact absurd hk (Nat.not_lt_zero k)
  | cons f segments =>
    rw [cut]
    split <;> exact List.cons_ne_nil _ _

/-- A cut falls into the last segment or before it, so the whole segments are among the others. -/
theorem mem_dropLast_of_cut {segments : List (Segment β)} {k : Nat} (hk : k < (fileOf segments).length) {f : Segment β}
    (hf : f ∈ (cut segments k).dropLast) : f ∈ segments.dropLast := by
  induction segments generalizing k with
  | nil => exact absurd hk (Nat.not_lt_zero k)
  | cons first segments ih =>
    rw [fileOf_cons, List.length_append] at hk
    rw [cut] at hf
    split at hf
    · have hrest : k - first.bytes.length < (fileOf segments).length := by omega
      have hne : segments ≠ [] := by
        rintro rfl
        exact absurd hrest (Nat.not_lt_zero _)
      rw [List.dropLast_cons_of_ne_nil (cut_ne_nil hrest), List.mem_cons] at hf
      rw [List.dropLast_cons_of_ne_nil hne, List.mem_cons]
      exact hf.imp_right (ih hrest)
    · cases hf

end Segments

end stream
