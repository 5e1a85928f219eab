import Cdx.Storage.Bson

namespace cdx

open codec pointer walk

/-! Which bytes `ParseBson` reads. -/

section Grammar

/-- An element begins at `pos`: its type, and its key up to the terminator at `stop`. -/
structure KeyAt (p : Pointer UInt8) (docLen pos stop : Nat) : Prop where
  room : pos + 1 < docLen
  type : p pos ≠ 0
  start : pos + 1 ≤ stop
  inside : stop < docLen
  nonzero : ∀ i, pos + 1 ≤ i → i < stop → p i ≠ 0
  terminator : p stop = 0

/-- A value of the given type begins at `pos` and takes `n` bytes. Nothing bounds object ids and booleans. -/
inductive ValueAt (p : Pointer UInt8) (docLen : Nat) : UInt8 → Nat → Nat → Prop
  | word {type : UInt8} {pos : Nat} (htype : type ∈ [0x01, 0x09, 0x11, 0x12]) (hroom : pos + 8 ≤ docLen) : ValueAt p docLen type pos 8
  | int {pos : Nat} (hroom : pos + 4 ≤ docLen) : ValueAt p docLen 0x10 pos 4
  | str {pos n : Nat} (hlen : (loadI32 p pos).toInt = n) (hroom : pos + (4 + n) ≤ docLen) : ValueAt p docLen 0x02 pos (4 + n)
  | binary {pos n : Nat} (hlen : (loadI32 p pos).toInt = n) (hroom : pos + (5 + n) ≤ docLen) : ValueAt p docLen 0x05 pos (5 + n)
  | doc {type : UInt8} {pos n : Nat} (htype : type = 0x03 ∨ type = 0x04) (hlen : (loadU32 p pos).toNat = n) (hsize : 5 ≤ n)
      (hroom : pos + n ≤ docLen) : ValueAt p docLen type pos n
  | objectId {pos : Nat} : ValueAt p docLen 0x07 pos 12
  | boolean {pos : Nat} : ValueAt p docLen 0x08 pos 1
  | null {pos : Nat} : ValueAt p docLen 0x0A pos 0

/-- The elements from `pos` on lead to a boolean whose key ends with the document, so that its value lies
    behind it: in this document, or in one inside that ends where this one does. -/
inductive OpenEnded : Pointer UInt8 → Nat → Nat → Prop
  | boolean {p : Pointer UInt8} {docLen pos stop : Nat} (hkey : KeyAt p docLen pos stop) (htype : p pos = 0x08)
      (hlast : stop + 1 = docLen) : OpenEnded p docLen pos
  | inner {p : Pointer UInt8} {docLen pos stop n : Nat} (hkey : KeyAt p docLen pos stop) (htype : p pos = 0x03 ∨ p pos = 0x04)
      (hlen : (loadU32 p (stop + 1)).toNat = n) (hsize : 5 ≤ n) (hlast : stop + 1 + n = docLen)
      (hinner : OpenEnded (shift p (stop + 1)) n 4) : OpenEnded p docLen pos
  | next {p : Pointer UInt8} {docLen pos stop n : Nat} (hkey : KeyAt p docLen pos stop)
      (hvalue : ValueAt p docLen (p pos) (stop + 1) n) (hrest : OpenEnded p docLen (stop + 1 + n)) : OpenEnded p docLen pos

variable {p : Pointer UInt8} {docLen pos stop : Nat}

theorem KeyAt.keyEnd_eq (hkey : KeyAt p docLen pos stop) : keyEnd p docLen (pos + 1) = stop := by
  have hstart := hkey.start
  have hinside := hkey.inside
  exact scan_eq hstart (by omega) hkey.nonzero hkey.terminator

theorem keyAt_keyEnd (hroom : pos + 1 < docLen) (htype : p pos ≠ 0) (hstop : keyEnd p docLen (pos + 1) < docLen) :
    KeyAt p docLen pos (keyEnd p docLen (pos + 1)) := by
  obtain ⟨hstart, -, hnonzero, hzero⟩ := scan_spec p 0 (docLen - (pos + 1)) (pos + 1)
  exact ⟨hroom, htype, hstart, hstop, hnonzero, hzero (by rw [keyEnd] at hstop; omega)⟩

theorem ValueAt.unique {type : UInt8} {n m : Nat} (hn : ValueAt p docLen type pos n) (hm : ValueAt p docLen type pos m) : n = m := by
  cases hn <;> cases hm <;> grind

/-- An open-ended document has an element where it is open-ended from. -/
theorem OpenEnded.element (hopen : OpenEnded p docLen pos) : ∃ stop n, KeyAt p docLen pos stop ∧ ValueAt p docLen (p pos) (stop + 1) n := by
  cases hopen with
  | boolean hkey htype hlast => exact ⟨_, 1, hkey, htype ▸ .boolean⟩
  | inner hkey htype hlen hsize hlast hinner => exact ⟨_, _, hkey, .doc htype hlen hsize hlast.le⟩
  | next hkey hvalue hrest => exact ⟨_, _, hkey, hvalue⟩

end Grammar

section Scalars

variable [Doubles] {p : Pointer UInt8} {docLen pos : Nat} {type : UInt8}

/-- All these accesses stay below a bound. -/
def Inside (bound : Nat) (reads : List Access) : Prop := ∀ a ∈ reads, a.start + a.count ≤ bound

omit [Doubles] in
theorem inside_append {bound : Nat} {xs ys : List Access} : Inside bound (xs ++ ys) ↔ Inside bound xs ∧ Inside bound ys :=
  List.forall_mem_append

omit [Doubles] in
theorem inside_cons {bound : Nat} {a : Access} {reads : List Access} :
    Inside bound (a :: reads) ↔ a.start + a.count ≤ bound ∧ Inside bound reads := List.forall_mem_cons

omit [Doubles] in
theorem inside_nil (bound : Nat) : Inside bound [] := List.forall_mem_nil _

/-- A case of the `switch` moves the cursor over the value that is there, and apart from booleans it
    reads inside the document. -/
structure ReadsValue (p : Pointer UInt8) (docLen pos : Nat) (type : UInt8) (r : Option (BsonValue × Nat) × List Access) : Prop where
  moved : ∀ n, r.1.map Prod.snd = some n ↔ ValueAt p docLen type pos n
  inside : type ≠ 0x08 → Inside docLen r.2

omit [Doubles] in
theorem readsValue_fixed {width : Nat} (hvalue : ∀ n, width = n ∧ pos + width ≤ docLen ↔ ValueAt p docLen type pos n) (v : BsonValue) :
    ReadsValue p docLen pos type (fixedValue docLen pos width v) := by
  rw [fixedValue]
  by_cases hshort : pos + width > docLen
  · rw [if_pos hshort]
    refine ⟨fun n => ?_, fun _ => inside_nil _⟩
    rw [← hvalue]
    simp only [Option.map_none, reduceCtorEq, false_iff]
    omega
  · rw [if_neg hshort]
    refine ⟨fun n => ?_, fun _ => inside_cons.mpr ⟨Nat.not_lt.mp hshort, inside_nil _⟩⟩
    rw [← hvalue]
    simp only [Option.map_some, Option.some.injEq]
    omega

omit [Doubles] in
theorem readsValue_sized {header : Nat} {used : Nat → Nat} (v : Nat → BsonValue) (hused : ∀ n, used n ≤ n)
    (hvalue : ∀ n, (0 ≤ (loadI32 p pos).toInt ∧ header + (loadI32 p pos).toInt.toNat = n ∧ pos + n ≤ docLen) ↔ ValueAt p docLen type pos n) :
    ReadsValue p docLen pos type (sizedValue p docLen pos header v used) := by
  rw [sizedValue]
  have hbound := hused (loadI32 p pos).toInt.toNat
  by_cases hshort : pos + header > docLen
  · rw [if_pos hshort]
    refine ⟨fun n => ?_, fun _ => inside_nil _⟩
    rw [← hvalue]
    simp only [Option.map_none, reduceCtorEq, false_iff]
    omega
  · rw [if_neg hshort]
    simp only
    by_cases hrefused : (loadI32 p pos).toInt < 0 ∨ (loadI32 p pos).toInt.toNat > docLen - (pos + header)
    · rw [if_pos hrefused]
      refine ⟨fun n => ?_, fun _ => inside_cons.mpr ⟨Nat.not_lt.mp hshort, inside_nil _⟩⟩
      rw [← hvalue]
      simp only [Option.map_none, reduceCtorEq, false_iff]
      omega
    · rw [if_neg hrefused]
      refine ⟨fun n => ?_, fun _ => inside_cons.mpr ⟨Nat.not_lt.mp hshort, inside_cons.mpr ⟨?_, inside_nil _⟩⟩⟩
      · rw [← hvalue]
        simp only [Option.map_some, Option.some.injEq]
        omega
      · simp only
        omega

omit [Doubles] in
theorem valueAt_word_iff (htype : type ∈ [0x01, 0x09, 0x11, 0x12]) (n : Nat) :
    8 = n ∧ pos + 8 ≤ docLen ↔ ValueAt p docLen type pos n := by
  refine ⟨fun h => h.1 ▸ .word htype h.2, fun hvalue => ?_⟩
  cases hvalue with
  | word _ hroom => exact ⟨rfl, hroom⟩
  | doc hdoc => rcases hdoc with rfl | rfl <;> exact absurd htype (by decide)
  | _ => exact absurd htype (by decide)

omit [Doubles] in
theorem valueAt_doc_iff (htype : type = 0x03 ∨ type = 0x04) (n : Nat) :
    (loadU32 p pos).toNat = n ∧ 5 ≤ n ∧ pos + n ≤ docLen ↔ ValueAt p docLen type pos n := by
  refine ⟨fun h => .doc htype h.1 h.2.1 h.2.2, fun hvalue => ?_⟩
  cases hvalue with
  | doc _ hlen hsize hroom => exact ⟨hlen, hsize, hroom⟩
  | word hword => rcases htype with rfl | rfl <;> exact absurd hword (by decide)
  | _ => exact absurd htype (by decide)

omit [Doubles] in
theorem valueAt_sized {header m n : Nat} {len : Int} (hlen : len = m) (hroom : pos + (header + m) ≤ docLen) (hn : header + m = n) :
    0 ≤ len ∧ header + len.toNat = n ∧ pos + n ≤ docLen := by
  rw [hlen, Int.toNat_natCast]
  omega

theorem readsValue_parseScalar (htype : ¬(type = 0x03 ∨ type = 0x04)) :
    ReadsValue p docLen pos type (parseScalar p docLen type pos) := by
  rw [parseScalar]
  split_ifs with h1 h2 h5 h7 h8 htime h10 h16 h18
  · exact readsValue_fixed (valueAt_word_iff (by simp [h1])) _
  · subst h2
    refine readsValue_sized _ (fun n => Nat.sub_le _ _) fun n => ⟨fun h => ?_, fun hvalue => ?_⟩
    · rw [← h.2.1]
      exact .str (Int.toNat_of_nonneg h.1).symm (by omega)
    · cases hvalue with
      | word hword => exact absurd hword (by decide)
      | doc hdoc => exact absurd hdoc (by decide)
      | str hlen hroom => exact valueAt_sized hlen hroom rfl
  · subst h5
    refine readsValue_sized _ (fun n => le_rfl) fun n => ⟨fun h => ?_, fun hvalue => ?_⟩
    · rw [← h.2.1]
      exact .binary (Int.toNat_of_nonneg h.1).symm (by omega)
    · cases hvalue with
      | word hword => exact absurd hword (by decide)
      | doc hdoc => exact absurd hdoc (by decide)
      | binary hlen hroom => exact valueAt_sized hlen hroom rfl
  · subst h7
    refine ⟨fun n => ⟨fun h => ?_, fun hvalue => ?_⟩, fun _ => inside_nil _⟩
    · cases h
      exact .objectId
    · rw [hvalue.unique .objectId]
      rfl
  · subst h8
    refine ⟨fun n => ⟨fun h => ?_, fun hvalue => ?_⟩, fun hne => absurd rfl hne⟩
    · cases h
      exact .boolean
    · rw [hvalue.unique .boolean]
      rfl
  · exact readsValue_fixed (valueAt_word_iff (by rcases htime with rfl | rfl <;> decide)) _
  · subst h10
    refine ⟨fun n => ⟨fun h => ?_, fun hvalue => ?_⟩, fun _ => inside_nil _⟩
    · cases h
      exact .null
    · rw [hvalue.unique .null]
      rfl
  · subst h16
    refine readsValue_fixed (fun n => ⟨fun h => h.1 ▸ .int h.2, fun hvalue => ?_⟩) _
    cases hvalue with
    | word hword => exact absurd hword (by decide)
    | doc hdoc => exact absurd hdoc (by decide)
    | int hroom => exact ⟨rfl, hroom⟩
  · exact readsValue_fixed (valueAt_word_iff (by simp [h18])) _
  · refine ⟨fun n => ⟨fun h => ?_, fun hvalue => ?_⟩, fun _ => inside_nil _⟩
    · cases h
    · cases hvalue <;> simp_all

end Scalars

section Elements

variable [Doubles] {p : Pointer UInt8} {docLen pos : Nat}

omit [Doubles] in
theorem inside_keyReads {stop : Nat} (hroom : pos + 1 < docLen) : Inside docLen (keyReads docLen pos stop) :=
  inside_cons.mpr ⟨by simp only; omega, inside_cons.mpr ⟨by simp only; omega, inside_nil _⟩⟩

/-- What a round of the loop reads behind the key, when it finds a value of `n` bytes at `start`. -/
inductive ValueReads (p : Pointer UInt8) (docLen start n : Nat) (type : UInt8) : List Access → Prop
  | scalar {reads : List Access} (htype : type ≠ 0x03 ∧ type ≠ 0x04 ∧ type ≠ 0x08) (hinside : Inside docLen reads) :
      ValueReads p docLen start n type reads
  | boolean (htype : type = 0x08) : ValueReads p docLen start n type [⟨start, 1⟩]
  | inner (htype : type = 0x03 ∨ type = 0x04) (hlen : (loadU32 p start).toNat = n) :
      ValueReads p docLen start n type
        (⟨start, 4⟩ :: (parseBson (shift p start) n).reads.map fun a => ⟨start + a.start, a.count⟩)

/-- One round of the loop: it ends, after reads inside the document, where no element begins; or it takes
    the element and goes on behind it. -/
inductive ElementRound (p : Pointer UInt8) (docLen pos : Nat) : Prop
  | ends (hinside : Inside docLen (parseElements p docLen pos).reads)
      (hnone : ∀ stop n, KeyAt p docLen pos stop → ¬ValueAt p docLen (p pos) (stop + 1) n)
  | takes {stop n : Nat} {field : Bytes × BsonValue} {reads : List Access} (hkey : KeyAt p docLen pos stop)
      (hvalue : ValueAt p docLen (p pos) (stop + 1) n) (hreads : ValueReads p docLen (stop + 1) n (p pos) reads)
      (hrest : parseElements p docLen pos =
        (parseElements p docLen (stop + 1 + n)).push field (keyReads docLen pos stop ++ reads))

omit [Doubles] in
theorem KeyAt.unique {stop stop' : Nat} (hkey : KeyAt p docLen pos stop) (hkey' : KeyAt p docLen pos stop') : stop' = stop :=
  hkey'.keyEnd_eq.symm.trans hkey.keyEnd_eq

theorem elementRound_inner {stop : Nat} (hkey : KeyAt p docLen pos stop) (hdoc : p pos = 0x03 ∨ p pos = 0x04) : ElementRound p docLen pos := by
  have hnone : ¬((loadU32 p (stop + 1)).toNat ≥ 5 ∧ stop + 1 + (loadU32 p (stop + 1)).toNat ≤ docLen) →
      ∀ stop' n, KeyAt p docLen pos stop' → ¬ValueAt p docLen (p pos) (stop' + 1) n := by
    intro hbad stop' n hkey' hvalue
    rw [hkey.unique hkey', ← valueAt_doc_iff hdoc] at hvalue
    omega
  have hunfold := parseElements.eq_1 p docLen pos
  simp only [if_pos hkey.room, if_neg hkey.type, hkey.keyEnd_eq, if_neg (Nat.not_le.mpr hkey.inside), if_pos hdoc] at hunfold
  by_cases hshort : stop + 1 + 4 > docLen
  · rw [if_pos hshort] at hunfold
    refine .ends ?_ (hnone (by omega))
    rw [hunfold]
    exact inside_keyReads hkey.room
  · rw [if_neg hshort] at hunfold
    by_cases hrefused : (loadU32 p (stop + 1)).toNat < 5 ∨ (loadU32 p (stop + 1)).toNat > docLen - (stop + 1)
    · rw [if_pos hrefused] at hunfold
      refine .ends ?_ (hnone (by omega))
      rw [hunfold]
      exact inside_append.mpr ⟨inside_keyReads hkey.room, inside_cons.mpr ⟨Nat.not_lt.mp hshort, inside_nil _⟩⟩
    · rw [if_neg hrefused] at hunfold
      exact .takes hkey ((valueAt_doc_iff hdoc _).mp (by omega)) (.inner hdoc rfl) hunfold

theorem elementRound_scalar {stop : Nat} (hkey : KeyAt p docLen pos stop) (hdoc : ¬(p pos = 0x03 ∨ p pos = 0x04)) :
    ElementRound p docLen pos := by
  have hspec : ReadsValue p docLen (stop + 1) (p pos) (parseScalar p docLen (p pos) (stop + 1)) := readsValue_parseScalar hdoc
  have hboolean : p pos = 0x08 → (parseScalar p docLen (p pos) (stop + 1)).2 = [⟨stop + 1, 1⟩] := by
    intro heq
    rw [heq]
    rfl
  have hunfold := parseElements.eq_1 p docLen pos
  simp only [if_pos hkey.room, if_neg hkey.type, hkey.keyEnd_eq, if_neg (Nat.not_le.mpr hkey.inside), if_neg hdoc] at hunfold
  cases hresult : parseScalar p docLen (p pos) (stop + 1) with
  | mk result reads =>
    rw [hresult] at hspec hboolean hunfold
    cases result with
    | none =>
      refine .ends ?_ fun stop' n hkey' hvalue => ?_
      · rw [hunfold]
        refine inside_append.mpr ⟨inside_keyReads hkey.room, hspec.inside fun heq => ?_⟩
        cases (hspec.moved 1).mpr (heq ▸ .boolean)
      · rw [hkey.unique hkey'] at hvalue
        cases (hspec.moved n).mpr hvalue
    | some found =>
      refine .takes hkey ((hspec.moved _).mp rfl) ?_ hunfold
      by_cases heq : p pos = 0x08
      · have hreads : reads = [⟨stop + 1, 1⟩] := hboolean heq
        rw [hreads]
        exact .boolean heq
      · exact .scalar ⟨fun h => hdoc (.inl h), fun h => hdoc (.inr h), heq⟩ (hspec.inside heq)

theorem elementRound (p : Pointer UInt8) (docLen pos : Nat) : ElementRound p docLen pos := by
  by_cases hkey : ∃ stop, KeyAt p docLen pos stop
  · obtain ⟨stop, hkey⟩ := hkey
    by_cases hdoc : p pos = 0x03 ∨ p pos = 0x04
    · exact elementRound_inner hkey hdoc
    · exact elementRound_scalar hkey hdoc
  · refine .ends ?_ fun stop n hstop => absurd ⟨stop, hstop⟩ hkey
    rw [parseElements]
    by_cases hroom : pos + 1 < docLen
    · rw [if_pos hroom]
      by_cases htype : p pos = 0
      · simp only [if_pos htype]
        exact inside_cons.mpr ⟨hroom.le, inside_nil _⟩
      · have hopen : keyEnd p docLen (pos + 1) ≥ docLen := Nat.not_lt.mp fun h => hkey ⟨_, keyAt_keyEnd hroom htype h⟩
        simp only [if_neg htype, if_pos hopen]
        exact inside_keyReads hroom
    · rw [if_neg hroom]
      exact inside_nil _

omit [Doubles] in
/-- Documents inside are shorter, and every round moves on: the induction that the loop allows. -/
theorem elements_induct {motive : Pointer UInt8 → Nat → Nat → Prop}
    (step : ∀ p docLen pos, (∀ q n, n < docLen → motive q n 4) →
      (∀ next, pos < docLen → pos < next → motive p docLen next) → motive p docLen pos)
    (p : Pointer UInt8) (docLen pos : Nat) : motive p docLen pos := by
  induction docLen using Nat.strong_induction_on generalizing p pos with
  | _ docLen ihInner =>
    induction hleft : docLen - pos using Nat.strong_induction_on generalizing pos with
    | _ left ihNext =>
      refine step p docLen pos (fun q n hn => ihInner n hn q 4) fun next hpos hnext => ?_
      exact ihNext (docLen - next) (by omega) next rfl

omit [Doubles] in
theorem Inside.mono {bound bound' : Nat} (hle : bound ≤ bound') {reads : List Access} (hreads : Inside bound reads) :
    Inside bound' reads := fun a ha => (hreads a ha).trans hle

omit [Doubles] in
theorem inside_shifted {start bound : Nat} {reads : List Access} :
    Inside (start + bound) (reads.map fun a => ⟨start + a.start, a.count⟩) ↔ Inside bound reads := by
  simp only [Inside, List.forall_mem_map, Nat.add_assoc, Nat.add_le_add_iff_left]

/-- A document that has its own length is read to its end. -/
theorem parseBson_reads {n : Nat} (hsize : 5 ≤ n) (hlen : (loadU32 p 0).toNat = n) :
    (parseBson p n).reads = ⟨0, 4⟩ :: (parseElements p n 4).reads := by
  rw [parseBson, if_neg (by omega)]
  simp only [hlen]
  rw [if_neg (by omega)]

omit [Doubles] in
theorem loadU32_shift (p : Pointer UInt8) (n : Nat) : loadU32 (shift p n) 0 = loadU32 p n := by
  rw [loadU32, load_shift, loadU32, Nat.add_zero]

/-- The loop never reads further than one byte behind the document. -/
theorem inside_parseElements_succ (p : Pointer UInt8) (docLen pos : Nat) :
    Inside (docLen + 1) (parseElements p docLen pos).reads := by
  refine elements_induct (motive := fun p docLen pos => Inside (docLen + 1) (parseElements p docLen pos).reads) ?_ p docLen pos
  intro p docLen pos ihInner ihNext
  cases elementRound p docLen pos with
  | ends hinside _ => exact hinside.mono (Nat.le_succ _)
  | @takes stop n _ reads hkey hvalue hreads hrest =>
    have hstart := hkey.start
    have hstop := hkey.inside
    rw [hrest]
    refine inside_append.mpr ⟨inside_append.mpr ⟨(inside_keyReads hkey.room).mono (Nat.le_succ _), ?_⟩, ihNext _ (by omega) (by omega)⟩
    cases hreads with
    | scalar _ hinside => exact hinside.mono (Nat.le_succ _)
    | boolean _ => exact inside_cons.mpr ⟨by simp only; omega, inside_nil _⟩
    | inner htype hlen =>
      obtain ⟨-, hsize, hroom⟩ := (valueAt_doc_iff htype _).mpr hvalue
      rw [parseBson_reads hsize ((congrArg UInt32.toNat (loadU32_shift p _)).trans hlen)]
      refine inside_cons.mpr ⟨by simp only; omega, ?_⟩
      refine Inside.mono (by omega) (inside_shifted.mpr (inside_cons.mpr ⟨?_, ihInner (shift p (stop + 1)) n (by omega)⟩))
      simp only
      omega

omit [Doubles] in
/-- Whether a document is open-ended from an element on is decided by the element and what follows it. -/
theorem openEnded_iff {stop n : Nat} (hkey : KeyAt p docLen pos stop) (hvalue : ValueAt p docLen (p pos) (stop + 1) n) :
    OpenEnded p docLen pos ↔ (p pos = 0x08 ∧ stop + 1 = docLen) ∨
      ((p pos = 0x03 ∨ p pos = 0x04) ∧ stop + 1 + n = docLen ∧ OpenEnded (shift p (stop + 1)) n 4) ∨
      OpenEnded p docLen (stop + 1 + n) := by
  constructor
  · intro hopen
    cases hopen with
    | boolean hkey' htype hlast =>
      rw [hkey.unique hkey'] at hlast
      exact .inl ⟨htype, hlast⟩
    | inner hkey' htype hlen hsize hlast hinner =>
      obtain rfl := hkey.unique hkey'
      obtain rfl := hvalue.unique (.doc htype hlen hsize hlast.le)
      exact .inr (.inl ⟨htype, hlast, hinner⟩)
    | next hkey' hvalue' hrest =>
      obtain rfl := hkey.unique hkey'
      obtain rfl := hvalue.unique hvalue'
      exact .inr (.inr hrest)
  · rintro (⟨htype, hlast⟩ | ⟨htype, hlast, hinner⟩ | hrest)
    · exact .boolean hkey htype hlast
    · obtain ⟨hlen, hsize, -⟩ := (valueAt_doc_iff htype _).mpr hvalue
      exact .inner hkey htype hlen hsize hlast hinner
    · exact .next hkey hvalue hrest

/-- The loop stays inside the document unless the document is open-ended. -/
theorem inside_parseElements_iff (p : Pointer UInt8) (docLen pos : Nat) :
    Inside docLen (parseElements p docLen pos).reads ↔ ¬OpenEnded p docLen pos := by
  refine elements_induct (motive := fun p docLen pos => Inside docLen (parseElements p docLen pos).reads ↔ ¬OpenEnded p docLen pos)
    ?_ p docLen pos
  intro p docLen pos ihInner ihNext
  cases elementRound p docLen pos with
  | ends hinside hnone =>
    refine iff_of_true hinside fun hopen => ?_
    obtain ⟨stop, n, hkey, hvalue⟩ := hopen.element
    exact hnone stop n hkey hvalue
  | @takes stop n _ reads hkey hvalue hreads hrest =>
    have hstart := hkey.start
    have hstop := hkey.inside
    have hkeyReads : Inside docLen (keyReads docLen pos stop) := inside_keyReads hkey.room
    have hnext := ihNext (stop + 1 + n) (by omega) (by omega)
    rw [hrest, openEnded_iff hkey hvalue, not_or, not_or, ← hnext]
    change Inside docLen ((keyReads docLen pos stop ++ reads) ++ _) ↔ _
    rw [inside_append, inside_append, and_iff_right hkeyReads, ← and_assoc]
    refine and_congr_left fun _ => ?_
    cases hreads with
    | scalar htype hinside => exact iff_of_true hinside ⟨fun h => htype.2.2 h.1, fun h => h.1.elim htype.1 htype.2.1⟩
    | boolean htype =>
      have hdoc : ¬(p pos = 0x03 ∨ p pos = 0x04) := by
        rw [htype]
        decide
      rw [inside_cons, and_iff_left (inside_nil _)]
      change stop + 1 + 1 ≤ docLen ↔ _
      refine ⟨fun h => ⟨fun hlast => ?_, fun hinner => hdoc hinner.1⟩, fun h => ?_⟩
      · omega
      · have hlast : stop + 1 ≠ docLen := fun heq => h.1 ⟨htype, heq⟩
        omega
    | inner htype hlen =>
      have hflag : p pos ≠ 0x08 := by
        rcases htype with heq | heq <;> rw [heq] <;> decide
      obtain ⟨-, hsize, hroom⟩ := (valueAt_doc_iff htype _).mpr hvalue
      have hinner := ihInner (shift p (stop + 1)) n (by omega)
      rw [parseBson_reads hsize ((congrArg UInt32.toNat (loadU32_shift p _)).trans hlen), inside_cons,
        and_iff_right (show stop + 1 + 4 ≤ docLen by omega), and_iff_right (fun h => hflag h.1)]
      by_cases hlast : stop + 1 + n = docLen
      · rw [← hlast, inside_shifted, inside_cons, and_iff_right (show 0 + 4 ≤ n by omega), hinner]
        simp only [htype, true_and]
      · refine iff_of_true ?_ fun h => hlast h.2.1
        refine Inside.mono (show stop + 1 + (n + 1) ≤ docLen by omega) (inside_shifted.mpr (inside_cons.mpr ⟨?_, ?_⟩))
        · simp only
          omega
        · exact inside_parseElements_succ _ _ _

/-- The bytes at `p` are a document of just `len` bytes, and its elements lead to a boolean whose key ends
    with the buffer. -/
def EndsInBoolean (p : Pointer UInt8) (len : Nat) : Prop := 5 ≤ len ∧ (loadU32 p 0).toNat = len ∧ OpenEnded p len 4

/-- `ParseBson` reads inside its buffer exactly if the buffer does not end before the value of a boolean. -/
theorem parseBson_inside_iff (p : Pointer UInt8) (len : Nat) :
    (∀ a ∈ (parseBson p len).reads, a.start + a.count ≤ len) ↔ ¬EndsInBoolean p len := by
  change Inside len (parseBson p len).reads ↔ _
  by_cases hshort : len < 5
  · rw [parseBson, if_pos hshort]
    exact iff_of_true (inside_nil _) fun h => Nat.not_le.mpr hshort h.1
  · have hheader : (⟨0, 4⟩ : Access).start + (⟨0, 4⟩ : Access).count ≤ len := by
      simp only
      omega
    by_cases hexact : (loadU32 p 0).toNat = len
    · rw [parseBson_reads (Nat.not_lt.mp hshort) hexact, inside_cons, and_iff_right hheader, inside_parseElements_iff]
      exact not_congr ⟨fun h => ⟨Nat.not_lt.mp hshort, hexact, h⟩, fun h => h.2.2⟩
    · refine iff_of_true ?_ fun h => hexact h.2.1
      rw [parseBson, if_neg hshort]
      simp only
      split_ifs with hrefused
      · exact inside_cons.mpr ⟨hheader, inside_nil _⟩
      · exact inside_cons.mpr ⟨hheader, (inside_parseElements_succ _ _ _).mono (by omega)⟩

/-- Six bytes: the length, the type of a boolean and an empty key. -/
def cutBoolean : Pointer UInt8 := fun i => ([6, 0, 0, 0, 8, 0] : Bytes).getD i 0

omit [Doubles] in
/-- The value of the boolean is read behind the six bytes. -/
theorem parseBson_reads_behind : ¬∀ a ∈ (@parseBson zeroDoubles cutBoolean 6).reads, a.start + a.count ≤ 6 := by
  intro hinside
  have hkey : KeyAt cutBoolean 6 4 5 := ⟨by decide, by decide, by decide, by decide, fun i hle hlt => by omega, rfl⟩
  rw [@parseBson_reads zeroDoubles _ _ (by decide) (by decide)] at hinside
  exact (@inside_parseElements_iff zeroDoubles _ _ _).mp (inside_cons.mp hinside).2 (.boolean hkey rfl rfl)

end Elements

end cdx
