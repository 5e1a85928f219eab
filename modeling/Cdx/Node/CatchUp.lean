import Cdx.Lib.Duplex

namespace cdx

/-! Catching up with a longer chain, in terms of heights: one node has `N` blocks, the other one has the
    first `n` of them and asks for more. -/

namespace CatchUp

/-- What the node that is behind says: requests for the headers from a height on and for a run of blocks,
    and how many headers of its own it sends. -/
inductive Up where
  | version
  | verack
  | getheaders (start : Nat)
  | headers (count : Nat)
  | getdata (start count : Nat)

/-- What the node that is ahead says. Its headers start at a height. -/
inductive Down where
  | version
  | verack
  | getheaders
  | headers (start : Nat)
  | block (height : Nat)

variable (N batch window : Nat)

def serve : Up → List Down
  | .version => [.version, .verack, .getheaders]
  | .verack => []
  | .getheaders start => [.headers start]
  | .headers count => if batch ≤ count then [.getheaders] else []
  | .getdata start count => (List.range' start count).map .block

/-- The height after the last one that a headers message covers. -/
def reach (start : Nat) : Nat := min N (start + batch)

/-- How the node that is behind takes a message. After a new block it may ask again or not. -/
inductive Reacts : Nat → Down → Nat → List Up → Prop where
  | version {n : Nat} : Reacts n .version n [.verack, .getheaders n]
  | verack {n : Nat} : Reacts n .verack n []
  | getheaders {n count : Nat} (hcount : n = N → count = 0) : Reacts n .getheaders n [.headers count]
  | missing {n start : Nat} (hmissing : n < reach N batch start) :
      Reacts n (.headers start) n [.getdata n (min window (reach N batch start - n)), .getheaders n]
  | full {n start : Nat} (hfull : start + batch ≤ n) : Reacts n (.headers start) n [.getheaders n]
  | last {n start : Nat} (hall : N ≤ n) (hshort : N < start + batch) : Reacts n (.headers start) n []
  | known {n height : Nat} (hknown : height < n) : Reacts n (.block height) n []
  | accepted {n : Nat} : Reacts n (.block n) (n + 1) []
  | resumed {n : Nat} : Reacts n (.block n) (n + 1) [.getheaders (n + 1)]
  | early {n height : Nat} (hearly : n < height) : Reacts n (.block height) n [.getheaders n]

/-- Headers that were asked for start no higher than the node is, and as long as blocks are missing a
    message that leads to them is on its way. -/
structure Queued (n : Nat) (queue : List Down) : Prop where
  below : n ≤ N
  starts : ∀ start, .headers start ∈ queue → start ≤ n
  blocks : ∀ height, .block height ∈ queue → height < N
  alive : n < N → .version ∈ queue ∨ ∃ start, .headers start ∈ queue

/-- The messages that lead to a new block, with the number of answers in between. -/
inductive Live (n : Nat) : Nat → Down → Prop where
  | block : Live n 0 (.block n)
  | headers {start : Nat} (hstart : start ≤ n) (hmissing : n < reach N batch start) : Live n 1 (.headers start)
  | full {start : Nat} (hfull : start + batch ≤ n) : Live n 2 (.headers start)
  | version : Live n 2 .version

/-- Once nothing is missing: a full batch and a greeting are answered by one more request, and nothing else is. -/
def weight : Down → Nat
  | .version => 2
  | .headers start => if start + batch ≤ N then 2 else 1
  | _ => 1

variable {N batch window}

theorem reach_le (start : Nat) : reach N batch start ≤ N := Nat.min_le_left _ _

/-- A request leads to headers that start right above the node. -/
theorem live_headers (hbatch : 0 < batch) {n : Nat} (hn : n < N) : Live N batch n 1 (.headers n) :=
  .headers (Nat.le_refl n) (Nat.lt_min.mpr ⟨hn, by omega⟩)

theorem Queued.mono {n n' : Nat} {queue : List Down} {d : Down} (hqueued : Queued N n (d :: queue)) (hn : n ≤ n') :
    (∀ start, .headers start ∈ queue → start ≤ n') ∧ ∀ height, .block height ∈ queue → height < N := by
  constructor
  · intro start hstart
    exact (hqueued.starts start (List.mem_cons_of_mem _ hstart)).trans hn
  · intro height hheight
    exact hqueued.blocks height (List.mem_cons_of_mem _ hheight)

/-- A queue with a new request in it is as it should be. -/
theorem Queued.requested {n n' : Nat} {queue added : List Down} {d : Down} (hqueued : Queued N n (d :: queue))
    (hn : n ≤ n') (hbelow : n' ≤ N) (hrequest : .headers n' ∈ added)
    (hstarts : ∀ start, .headers start ∈ added → start = n') (hblocks : ∀ height, .block height ∈ added → height < N) :
    Queued N n' (queue ++ added) := by
  obtain ⟨hqstarts, hqblocks⟩ := hqueued.mono hn
  refine ⟨hbelow, ?_, ?_, fun _ => Or.inr ⟨n', List.mem_append_right _ hrequest⟩⟩
  · intro start hstart
    obtain hold | hnew := List.mem_append.mp hstart
    · exact hqstarts start hold
    · exact (hstarts start hnew).le
  · intro height hheight
    obtain hold | hnew := List.mem_append.mp hheight
    · exact hqblocks height hold
    · exact hblocks height hnew

/-- A message that leads nowhere may be dropped. -/
theorem Queued.dropped {n n' : Nat} {queue added : List Down} {d : Down} (hqueued : Queued N n (d :: queue))
    (hn : n ≤ n') (hbelow : n' ≤ N) (hadded : ∀ d' ∈ added, d' = .getheaders)
    (hd : n' < N → d ≠ .version ∧ ∀ start, d ≠ .headers start) : Queued N n' (queue ++ added) := by
  obtain ⟨hqstarts, hqblocks⟩ := hqueued.mono hn
  refine ⟨hbelow, ?_, ?_, ?_⟩
  · intro start hstart
    obtain hold | hnew := List.mem_append.mp hstart
    · exact hqstarts start hold
    · cases hadded _ hnew
  · intro height hheight
    obtain hold | hnew := List.mem_append.mp hheight
    · exact hqblocks height hold
    · cases hadded _ hnew
  · intro hmissing
    obtain ⟨hversion, hheaders⟩ := hd hmissing
    obtain halive | ⟨start, halive⟩ := hqueued.alive (by omega)
    · obtain rfl | htail := List.mem_cons.mp halive
      · exact absurd rfl hversion
      · exact Or.inl (List.mem_append_left _ htail)
    · obtain rfl | htail := List.mem_cons.mp halive
      · exact absurd rfl (hheaders start)
      · exact Or.inr ⟨start, List.mem_append_left _ htail⟩

theorem Queued.reacts {n n' : Nat} {d : Down} {out : List Up} {queue : List Down} (hqueued : Queued N n (d :: queue))
    (hreacts : Reacts N batch window n d n' out) : Queued N n' (queue ++ out.flatMap (serve batch)) := by
  have hbelow := hqueued.below
  cases hreacts with
  | version => exact hqueued.requested (Nat.le_refl _) hbelow (by simp [serve]) (by simp [serve]) (by simp [serve])
  | verack => exact hqueued.dropped (Nat.le_refl _) hbelow (by simp) (by simp)
  | getheaders hcount =>
    refine hqueued.dropped (Nat.le_refl _) hbelow ?_ (by simp)
    intro d' hd'
    simp only [List.flatMap_cons, List.flatMap_nil, List.append_nil, serve] at hd'
    split at hd'
    · exact List.mem_singleton.mp hd'
    · cases hd'
  | @missing start hmissing =>
    refine hqueued.requested (Nat.le_refl _) hbelow (by simp [serve]) (by simp [serve]) ?_
    have hreach : reach N batch start ≤ N := reach_le start
    simp only [List.flatMap_cons, List.flatMap_nil, List.append_nil, serve, List.mem_append, List.mem_map,
      List.mem_singleton, List.mem_range'_1]
    rintro height (⟨_, hrange, ⟨⟩⟩ | hheaders)
    · omega
    · cases hheaders
  | full hfull => exact hqueued.requested (Nat.le_refl _) hbelow (by simp [serve]) (by simp [serve]) (by simp [serve])
  | last hall hshort => exact hqueued.dropped (Nat.le_refl _) hbelow (by simp) (fun hmissing => by omega)
  | known hknown => exact hqueued.dropped (Nat.le_refl _) hbelow (by simp) (by simp)
  | accepted =>
    have hnext := hqueued.blocks n List.mem_cons_self
    exact hqueued.dropped (Nat.le_succ n) hnext (by simp) (by simp)
  | resumed =>
    have hnext := hqueued.blocks n List.mem_cons_self
    exact hqueued.requested (Nat.le_succ n) hnext (by simp [serve]) (by simp [serve]) (by simp [serve])
  | early hearly => exact hqueued.requested (Nat.le_refl _) hbelow (by simp [serve]) (by simp [serve]) (by simp [serve])

theorem Queued.live {n : Nat} {queue : List Down} (hqueued : Queued N n queue) (hn : N - n ≠ 0) :
    ∃ k, ∃ d ∈ queue, Live N batch n k d := by
  obtain hversion | ⟨start, hheaders⟩ := hqueued.alive (by omega)
  · exact ⟨2, _, hversion, .version⟩
  · have hstart := hqueued.starts start hheaders
    by_cases hfull : start + batch ≤ n
    · exact ⟨2, _, hheaders, .full hfull⟩
    · exact ⟨1, _, hheaders, .headers hstart (Nat.lt_min.mpr ⟨by omega, by omega⟩)⟩

/-- A live message that brings no block is answered by one that is closer to a block. -/
theorem Live.lower (hbatch : 0 < batch) (hwindow : 0 < window) {n n' k : Nat} {d : Down} {out : List Up} (hn : N - n ≠ 0)
    (hsame : n' = n) (hreacts : Reacts N batch window n d n' out) (hlive : Live N batch n k d) :
    ∃ k' < k, ∃ d' ∈ out.flatMap (serve batch), Live N batch n k' d' := by
  have hheaders : Live N batch n 1 (.headers n) := live_headers hbatch (by omega)
  cases hlive with
  | block => cases hreacts <;> omega
  | headers hstart hmissing =>
    have hreach := Nat.lt_min.mp hmissing
    cases hreacts with
    | missing hmissing =>
      refine ⟨0, Nat.zero_lt_one, .block n, ?_, .block⟩
      simp only [List.flatMap_cons, serve]
      refine List.mem_append_left _ (List.mem_map.mpr ⟨n, List.mem_range'_1.mpr ⟨Nat.le_refl n, ?_⟩, rfl⟩)
      omega
    | full hfull => omega
    | last hall hshort => omega
  | full hfull =>
    cases hreacts with
    | missing hmissing => exact ⟨1, Nat.one_lt_two, .headers n, by simp [serve], hheaders⟩
    | full hfull => exact ⟨1, Nat.one_lt_two, .headers n, by simp [serve], hheaders⟩
    | last hall hshort => omega
  | version =>
    cases hreacts with
    | version => exact ⟨1, Nat.one_lt_two, .headers n, by simp [serve], hheaders⟩

theorem Queued.drains (hbatch : 0 < batch) {n n' : Nat} {d : Down} {out : List Up} {queue : List Down}
    (hqueued : Queued N n (d :: queue)) (hn : N - n = 0) (hsame : n' = n) (hreacts : Reacts N batch window n d n' out) :
    ((out.flatMap (serve batch)).map (weight N batch)).sum < weight N batch d := by
  have hbelow := hqueued.below
  obtain rfl : n = N := by omega
  have hself : ¬ n + batch ≤ n := by omega
  cases hreacts with
  | version => simp [serve, hself, weight]
  | verack => simp [weight]
  | getheaders hcount => simp [serve, weight, hcount, Nat.pos_iff_ne_zero.mp hbatch]
  | @missing start hmissing =>
    have hreach : reach n batch start ≤ n := reach_le start
    omega
  | full hfull => simp [serve, hself, weight, hfull]
  | last hall hshort =>
    rw [weight, if_neg (by omega)]
    exact Nat.zero_lt_one
  | known hknown => simp [weight]
  | accepted => omega
  | resumed => omega
  | early hearly =>
    have hblock := hqueued.blocks _ List.mem_cons_self
    omega

theorem Reacts.le {n n' : Nat} {d : Down} {out : List Up} (hreacts : Reacts N batch window n d n' out) : n ≤ n' := by
  cases hreacts <;> omega

theorem step_le {x y : duplex.State Nat Up Down} (hstep : duplex.Step (serve batch) (Reacts N batch window) x y) :
    x.client ≤ y.client := by
  cases hstep with
  | server => exact Nat.le_refl _
  | client hreact => exact hreact.le

theorem Reacts.moves {n n' : Nat} {d : Down} {out : List Up} {queue : List Down} (hqueued : Queued N n (d :: queue))
    (hreacts : Reacts N batch window n d n' out) : n' = n ∨ N - n' < N - n := by
  cases hreacts with
  | accepted | resumed =>
    have hblock := hqueued.blocks _ List.mem_cons_self
    omega
  | _ => exact Or.inl rfl

/-- Catching up makes progress. -/
def progress (hbatch : 0 < batch) (hwindow : 0 < window) : duplex.Progress (serve batch) (Reacts N batch window) where
  Inv := Queued N
  left n := N - n
  Live := Live N batch
  weight := weight N batch
  keeps := Queued.reacts
  moves := Reacts.moves
  live := Queued.live
  lower hn hreacts hlive := hlive.lower hbatch hwindow hn rfl hreacts
  drains hqueued hn hreacts := hqueued.drains hbatch hn rfl hreacts

end CatchUp

end cdx
