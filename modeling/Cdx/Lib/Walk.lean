import Cdx.Lib.Codec

namespace walk

open codec

variable {β α γ : Type}

/-- An access to memory: where it starts and how many elements it takes. -/
structure Access where
  start : Nat
  count : Nat
deriving DecidableEq

/-- A decoder object: the memory it points to, the length it was told, its cursor, and its accesses
    so far. A move of the cursor is an access that takes nothing. -/
structure Walked (β : Type) where
  buf : List β
  len : Nat
  pos : Nat
  log : List Access

/-- A walk changes a decoder object and may fail. Unlike a `Decoder` it leaves the object also when it fails. -/
abbrev Walk (β α : Type) := OptionT (StateM (Walked β)) α

/-- A walk that is given by what it does to an object. -/
def step (f : Walked β → Option α × Walked β) : Walk β α := OptionT.mk f

def exec (w : Walk β α) (s : Walked β) : Option α × Walked β := w.run.run s

@[simp]
theorem exec_step (f : Walked β → Option α × Walked β) (s : Walked β) : exec (step f) s = f s := rfl

theorem exec_bind_of_some {w : Walk β α} {s s' : Walked β} {a : α} (hw : exec w s = (some a, s')) (f : α → Walk β γ) :
    exec (w >>= f) s = exec (f a) s' := by
  simp only [exec, OptionT.run_bind, Option.elimM, StateT.run_bind] at hw ⊢
  rw [hw]
  rfl

theorem exec_bind_of_none {w : Walk β α} {s s' : Walked β} (hw : exec w s = (none, s')) (f : α → Walk β γ) :
    exec (w >>= f) s = (none, s') := by
  simp only [exec, OptionT.run_bind, Option.elimM, StateT.run_bind] at hw ⊢
  rw [hw]
  rfl

section Primitives

-- The number of values of the word that holds lengths and positions.
variable (M : Nat)

/-- `n` elements from the cursor on, unless the told length forbids it. -/
def take (n : Nat) : Walk β (List β) := step fun s =>
  if (s.pos + n) % M > s.len then (none, s)
  else (some ((s.buf.drop s.pos).take n), { s with pos := (s.pos + n) % M, log := ⟨s.pos, n⟩ :: s.log })

/-- What the object takes to be left, as a difference of words. -/
def left (s : Walked β) : Nat := (s.len + M - s.pos) % M

/-- `n` elements, after a check of `n` against what is left. -/
def takeLeft (n : Nat) : Walk β (List β) := step fun s => if n > left M s then (none, s) else exec (take M n) s

/-- A walk of a second object over what is left, after which the cursor is moved by a computed amount. -/
def ahead (w : Walk β α) (advance : α → Nat) : Walk β α := step fun s =>
  let r := exec w ⟨s.buf.drop s.pos, left M s, 0, []⟩
  let log := r.2.log.map (fun a => ⟨s.pos + a.start, a.count⟩) ++ s.log
  match r.1 with
  | none => (none, { s with log := log })
  | some a =>
    let pos := (s.pos + advance a) % M
    (some a, { s with pos := pos, log := ⟨pos, 0⟩ :: log })

end Primitives

def many (w : Walk β α) : Nat → Walk β (List α)
  | 0 => pure []
  | n + 1 => do
    let a ← w
    let rest ← many w n
    pure (a :: rest)

/-- A walk from the start of some memory. -/
def start (w : Walk β α) (buf : List β) : Option α × List Access :=
  let r := exec w ⟨buf, buf.length, 0, []⟩
  (r.1, r.2.log)

section Consumption

/-- The decoder takes at least as much off the cursor as the size of what it returns. -/
def Consumes (d : Decoder β α) (size : α → Nat) : Prop := ∀ c a c', d.run c = some (a, c') → c.pos + size a ≤ c'.pos

theorem consumes_of_exact {d : Decoder β α} {encode : α → List β} (hd : Exact d encode) :
    Consumes d fun a => (encode a).length := fun c a c' hrun => (hd c a c' hrun).pos.ge

theorem Consumes.many {d : Decoder β α} {size : α → Nat} (hd : Consumes d size) (n : Nat) :
    Consumes (codec.many d n) fun values => (values.map size).sum := by
  intro c values c' hrun
  induction n generalizing c values with
  | zero =>
    cases hrun
    exact Nat.le_refl _
  | succ n ih =>
    obtain ⟨a, mid, rest, rfl, ha, hrest⟩ := many_succ_eq_some hrun
    have hfirst := hd c a mid ha
    have hothers := ih mid rest hrest
    simp only [List.map_cons, List.sum_cons] at hothers ⊢
    omega

end Consumption

section Safety

/-- The object was told the length of its memory, and its cursor and all its accesses are inside it. -/
structure Safe (s : Walked β) : Prop where
  len : s.len = s.buf.length
  pos : s.pos ≤ s.buf.length
  log : ∀ a ∈ s.log, a.start + a.count ≤ s.buf.length

/-- On memory of less than half as many elements as there are words, the walk keeps a safe object safe and
    does what the decoder does. -/
def Shadows (M : Nat) (w : Walk β α) (d : Decoder β α) : Prop :=
  ∀ s : Walked β, Safe s → 2 * s.buf.length < M →
    (exec w s).2.buf = s.buf ∧ Safe (exec w s).2 ∧
      d.run ⟨s.buf, s.pos⟩ = (exec w s).1.map fun a => (a, ⟨s.buf, (exec w s).2.pos⟩)

variable {M : Nat}

theorem shadows_pure (a : α) : Shadows M (pure a : Walk β α) (pure a) := fun _ hs _ => ⟨rfl, hs, rfl⟩

theorem shadows_failure : Shadows M (failure : Walk β α) failure := fun _ hs _ => ⟨rfl, hs, rfl⟩

theorem Shadows.bind {w : Walk β α} {d : Decoder β α} {f : α → Walk β γ} {g : α → Decoder β γ} (hw : Shadows M w d)
    (hf : ∀ a, Shadows M (f a) (g a)) : Shadows M (w >>= f) (d >>= g) := by
  intro s hs hroom
  obtain ⟨hbuf, hsafe, hrun⟩ := hw s hs hroom
  rw [StateT.run_bind, hrun]
  cases hresult : exec w s with
  | mk result s' =>
    rw [hresult] at hbuf hsafe
    cases result with
    | none =>
      rw [exec_bind_of_none hresult]
      exact ⟨hbuf, hsafe, rfl⟩
    | some a =>
      obtain ⟨hbuf', hsafe', hrun'⟩ := hf a s' hsafe (by rw [hbuf]; exact hroom)
      rw [exec_bind_of_some hresult]
      rw [hbuf] at hbuf' hrun'
      exact ⟨hbuf', hsafe', hrun'⟩

theorem Shadows.map {w : Walk β α} {d : Decoder β α} (hw : Shadows M w d) (g : α → γ) : Shadows M (g <$> w) (g <$> d) := by
  have hbind := hw.bind fun a => shadows_pure (g a)
  rwa [bind_pure_comp] at hbind

theorem Shadows.many {w : Walk β α} {d : Decoder β α} (hw : Shadows M w d) (n : Nat) :
    Shadows M (many w n) (codec.many d n) := by
  induction n with
  | zero => exact shadows_pure []
  | succ n ih => exact hw.bind fun a => ih.bind fun rest => shadows_pure (a :: rest)

theorem Shadows.ite {p : Prop} [Decidable p] {w w' : Walk β α} {d d' : Decoder β α} (hw : Shadows M w d)
    (hw' : Shadows M w' d') : Shadows M (if p then w else w') (if p then d else d') := by
  split
  · exact hw
  · exact hw'

/-- Elements are taken inside the memory: their number is a word's, so the sum of positions does not wrap. -/
theorem shadows_take {n : Nat} (hn : 2 * n ≤ M) : Shadows M (take M n : Walk β (List β)) (codec.take n) := by
  intro s hs hroom
  have hpos := hs.pos
  have hsum : (s.pos + n) % M = s.pos + n := Nat.mod_eq_of_lt (by omega)
  rw [take, exec_step, StateT.run, codec.take, hsum, hs.len]
  by_cases hshort : s.pos + n > s.buf.length
  · rw [if_pos hshort, if_pos hshort]
    exact ⟨rfl, hs, rfl⟩
  · rw [if_neg hshort, if_neg hshort]
    refine ⟨rfl, ⟨rfl, Nat.not_lt.mp hshort, ?_⟩, rfl⟩
    exact List.forall_mem_cons.mpr ⟨Nat.not_lt.mp hshort, hs.log⟩

theorem left_eq {s : Walked β} (hs : Safe s) (hroom : 2 * s.buf.length < M) : left M s = s.buf.length - s.pos := by
  have hpos := hs.pos
  rw [left, hs.len, show s.buf.length + M - s.pos = s.buf.length - s.pos + M by omega, Nat.add_mod_right]
  exact Nat.mod_eq_of_lt (by omega)

/-- The same after a check of the number against what is left. -/
theorem shadows_takeLeft (n : Nat) : Shadows M (takeLeft M n : Walk β (List β)) fun c =>
    if n > c.remaining then none else codec.take n c := by
  intro s hs hroom
  have hpos := hs.pos
  rw [takeLeft, exec_step, left_eq hs hroom, StateT.run]
  change _ ∧ _ ∧ (if n > s.buf.length - s.pos then none else _) = _
  by_cases hshort : n > s.buf.length - s.pos
  · rw [if_pos hshort, if_pos hshort]
    exact ⟨rfl, hs, rfl⟩
  · rw [if_neg hshort, if_neg hshort]
    exact shadows_take (by omega) s hs hroom

/-- The second object sees exactly what is left, and the move afterwards stays inside what it took. -/
theorem Shadows.ahead {w : Walk β α} {d : Decoder β α} (hw : Shadows M w d) {advance : α → Nat}
    (hadvance : Consumes d advance) :
    Shadows M (ahead M w advance) fun c =>
      (d.run ⟨c.buf.drop c.pos, 0⟩).map fun r => (r.1, ⟨c.buf, c.pos + advance r.1⟩) := by
  intro s hs hroom
  have hpos := hs.pos
  have hdrop : (s.buf.drop s.pos).length = s.buf.length - s.pos := List.length_drop
  have hsub : Safe (⟨s.buf.drop s.pos, left M s, 0, []⟩ : Walked β) :=
    ⟨(left_eq hs hroom).trans hdrop.symm, Nat.zero_le _, List.forall_mem_nil _⟩
  obtain ⟨hbuf, hsafe, hrun⟩ := hw _ hsub (by simp only; omega)
  rw [walk.ahead, exec_step]
  simp only
  generalize exec w ⟨s.buf.drop s.pos, left M s, 0, []⟩ = r at hbuf hsafe hrun ⊢
  have hlog : ∀ a ∈ r.2.log.map (fun a => (⟨s.pos + a.start, a.count⟩ : Access)) ++ s.log,
      a.start + a.count ≤ s.buf.length := by
    intro a ha
    rcases List.mem_append.mp ha with hnew | hold
    · obtain ⟨a', ha', rfl⟩ := List.mem_map.mp hnew
      have hbound := hsafe.log a' ha'
      rw [hbuf, hdrop] at hbound
      simp only
      omega
    · exact hs.log a hold
  cases hresult : r.1 with
  | none =>
    rw [hresult] at hrun
    refine ⟨rfl, ⟨hs.len, hpos, hlog⟩, ?_⟩
    rw [StateT.run, hrun]
    rfl
  | some a =>
    rw [hresult] at hrun
    have hmoved : 0 + advance a ≤ r.2.pos := hadvance _ _ _ hrun
    have hinside : r.2.pos ≤ s.buf.length - s.pos := by
      have hbound := hsafe.pos
      rwa [hbuf, hdrop] at hbound
    have hsum : (s.pos + advance a) % M = s.pos + advance a := Nat.mod_eq_of_lt (by omega)
    have hmovedTo : s.pos + advance a ≤ s.buf.length := by omega
    simp only [hsum]
    refine ⟨trivial, ⟨hs.len, hmovedTo, List.forall_mem_cons.mpr ⟨hmovedTo, hlog⟩⟩, ?_⟩
    rw [StateT.run, hrun]
    rfl

/-- From the start every access of the walk is inside the memory, and the result is the decoder's. -/
theorem Shadows.start {w : Walk β α} {d : Decoder β α} (hw : Shadows M w d) {buf : List β} (hroom : 2 * buf.length < M) :
    (start w buf).1 = (d.run ⟨buf, 0⟩).map Prod.fst ∧ ∀ a ∈ (start w buf).2, a.start + a.count ≤ buf.length := by
  have hs : Safe (⟨buf, buf.length, 0, []⟩ : Walked β) := ⟨rfl, Nat.zero_le _, List.forall_mem_nil _⟩
  obtain ⟨hbuf, hsafe, hrun⟩ := hw _ hs hroom
  refine ⟨?_, ?_⟩
  · rw [hrun, Option.map_map]
    exact Option.map_id'.symm
  · have hlog := hsafe.log
    rw [hbuf] at hlog
    exact hlog

end Safety

end walk
