import Mathlib

/-! Two parties joined by two queues that keep their order. One answers every message by itself; the
    other has a state. -/

namespace duplex

structure State (σ Up Down : Type) where
  client : σ
  up : List Up
  down : List Down

variable {σ Up Down : Type}

section Steps

variable (serve : Up → List Down) (react : σ → Down → σ → List Up → Prop)

/-- One party takes its next message and sends its answers. -/
inductive Step : State σ Up Down → State σ Up Down → Prop where
  | server {s : σ} {u : Up} {up : List Up} {down : List Down} : Step ⟨s, u :: up, down⟩ ⟨s, up, down ++ serve u⟩
  | client {s s' : σ} {d : Down} {up out : List Up} {down : List Down} (hreact : react s d s' out) :
      Step ⟨s, up, d :: down⟩ ⟨s', up ++ out, down⟩

/-- What the client will get to read if it sends nothing more. -/
def pending (x : State σ Up Down) : List Down := x.down ++ x.up.flatMap serve

/-- The client takes the first message of all that it will get to read. -/
inductive Consume : σ × List Down → σ × List Down → Prop where
  | mk {s s' : σ} {d : Down} {out : List Up} {queue : List Down} (hreact : react s d s' out) :
      Consume (s, d :: queue) (s', queue ++ out.flatMap serve)

theorem Consume.cases {s s' : σ} {queue queue' : List Down} (hconsume : Consume serve react (s, queue) (s', queue')) :
    ∃ d rest out, queue = d :: rest ∧ react s d s' out ∧ queue' = rest ++ out.flatMap serve := by
  cases hconsume with
  | mk hreact => exact ⟨_, _, _, rfl, hreact, rfl⟩

/-- The server only moves what is pending along. -/
theorem Step.pending_cases {x y : State σ Up Down} (hstep : Step serve react x y) :
    (y.client = x.client ∧ pending serve y = pending serve x ∧ y.up.length < x.up.length) ∨
      Consume serve react (x.client, pending serve x) (y.client, pending serve y) := by
  cases hstep with
  | server =>
    refine Or.inl ⟨rfl, ?_, Nat.lt_succ_self _⟩
    simp only [pending, List.flatMap_cons, List.append_assoc]
  | @client s s' d up out down hreact =>
    right
    have hconsume : Consume serve react (s, d :: (down ++ up.flatMap serve))
        (s', down ++ up.flatMap serve ++ out.flatMap serve) := .mk hreact
    simpa only [pending, List.cons_append, List.flatMap_append, List.append_assoc] using hconsume

/-- The exchange ends if the client cannot read for ever. -/
theorem acc_of_pending {x : State σ Up Down}
    (hacc : Acc (fun b a => Consume serve react a b) (x.client, pending serve x)) :
    Acc (fun b a => Step serve react a b) x := by
  generalize hpair : (x.client, pending serve x) = pair at hacc
  induction hacc generalizing x with
  | intro pair _ ih =>
    -- Between two messages of the client, every step shortens the queue of the server.
    induction hlength : x.up.length using Nat.strong_induction_on generalizing x with
    | _ length ihlength =>
      constructor
      intro y hstep
      obtain ⟨hclient, hpending, hshorter⟩ | hconsume := hstep.pending_cases
      · exact ihlength y.up.length (hlength ▸ hshorter) (by rw [hclient, hpending, hpair]) rfl
      · exact ih _ (hpair ▸ hconsume) rfl

end Steps

/-- Why a client comes to an end: how much it has left, which messages will make it less and after how
    many answers, and how much a message can still cause when nothing is left. -/
structure Progress (serve : Up → List Down) (react : σ → Down → σ → List Up → Prop) where
  Inv : σ → List Down → Prop
  left : σ → Nat
  Live : σ → Nat → Down → Prop
  weight : Down → Nat
  keeps : ∀ {s s' d out queue}, Inv s (d :: queue) → react s d s' out → Inv s' (queue ++ out.flatMap serve)
  moves : ∀ {s s' d out queue}, Inv s (d :: queue) → react s d s' out → s' = s ∨ left s' < left s
  live : ∀ {s queue}, Inv s queue → left s ≠ 0 → ∃ k, ∃ d ∈ queue, Live s k d
  lower : ∀ {s d out k}, left s ≠ 0 → react s d s out → Live s k d → ∃ k' < k, ∃ d' ∈ out.flatMap serve, Live s k' d'
  drains : ∀ {s d out queue}, Inv s (d :: queue) → left s = 0 → react s d s out →
    ((out.flatMap serve).map weight).sum < weight d

namespace Progress

variable {serve : Up → List Down} {react : σ → Down → σ → List Up → Prop} (progress : Progress serve react)

/-- With nothing left, the messages run out. -/
theorem acc_of_done {s : σ} {queue : List Down} (hinv : progress.Inv s queue) (hleft : progress.left s = 0) :
    Acc (fun b a => Consume serve react a b) (s, queue) := by
  induction hweight : (queue.map progress.weight).sum using Nat.strong_induction_on generalizing queue with
  | _ weight ih =>
    constructor
    rintro _ ⟨hreact⟩
    have hnext := progress.keeps hinv hreact
    obtain rfl | hless := progress.moves hinv hreact
    · have hdrains := progress.drains hinv hleft hreact
      refine ih _ ?_ hnext rfl
      rw [← hweight, List.map_append, List.sum_append, List.map_cons, List.sum_cons]
      omega
    · omega

/-- A live message is followed by its place in the queue, and after it the answer that it leads to. -/
theorem acc_of_live {s : σ} (hleft : progress.left s ≠ 0)
    (hless : ∀ {s' queue}, progress.left s' < progress.left s → progress.Inv s' queue →
      Acc (fun b a => Consume serve react a b) (s', queue))
    {k : Nat} {before after : List Down} {d : Down} (hlive : progress.Live s k d)
    (hinv : progress.Inv s (before ++ d :: after)) :
    Acc (fun b a => Consume serve react a b) (s, before ++ d :: after) := by
  induction k using Nat.strong_induction_on generalizing before d after with
  | _ k ihk =>
    induction before generalizing after with
    | nil =>
      constructor
      rintro _ ⟨hreact⟩
      have hnext := progress.keeps hinv hreact
      obtain rfl | hmoved := progress.moves hinv hreact
      · obtain ⟨k', hk', d', hd', hlive'⟩ := progress.lower hleft hreact hlive
        obtain ⟨before', after', hsplit⟩ := List.append_of_mem (List.mem_append_right after hd')
        rw [hsplit] at hnext ⊢
        exact ihk k' hk' hlive' hnext
      · exact hless hmoved hnext
    | cons first before ih =>
      rw [List.cons_append] at hinv ⊢
      constructor
      rintro ⟨s', queue'⟩ hconsume
      obtain ⟨d', rest, out, hqueue, hreact, rfl⟩ := hconsume.cases
      cases hqueue
      have hnext := progress.keeps hinv hreact
      obtain rfl | hmoved := progress.moves hinv hreact
      · rw [List.append_assoc, List.cons_append] at hnext ⊢
        exact ih hnext
      · exact hless hmoved hnext

theorem acc {s : σ} {queue : List Down} (hinv : progress.Inv s queue) :
    Acc (fun b a => Consume serve react a b) (s, queue) := by
  induction hleft : progress.left s using Nat.strong_induction_on generalizing s queue with
  | _ left ih =>
    by_cases hdone : progress.left s = 0
    · exact progress.acc_of_done hinv hdone
    · obtain ⟨k, d, hd, hlive⟩ := progress.live hinv hdone
      obtain ⟨before, after, rfl⟩ := List.append_of_mem hd
      exact progress.acc_of_live hdone (fun hless hinv' => ih _ (hleft ▸ hless) hinv' rfl) hlive hinv

/-- Every exchange comes to an end. -/
theorem acc_step {x : State σ Up Down} (hinv : progress.Inv x.client (pending serve x)) :
    Acc (fun b a => Step serve react a b) x := acc_of_pending serve react (progress.acc hinv)

/-- The invariant holds on along the exchange. -/
theorem keeps_step {x y : State σ Up Down} (hinv : progress.Inv x.client (pending serve x))
    (hstep : Step serve react x y) : progress.Inv y.client (pending serve y) := by
  obtain ⟨hclient, hpending, -⟩ | hconsume := hstep.pending_cases
  · rwa [hclient, hpending]
  · obtain ⟨d, rest, out, hqueue, hreact, hqueue'⟩ := hconsume.cases
    rw [hqueue] at hinv
    rw [hqueue']
    exact progress.keeps hinv hreact

/-- An exchange that is over has nothing left. -/
theorem done_of_pending {x : State σ Up Down} (hinv : progress.Inv x.client (pending serve x))
    (hpending : pending serve x = []) : progress.left x.client = 0 := by
  by_contra hleft
  obtain ⟨k, d, hd, -⟩ := progress.live hinv hleft
  rw [hpending] at hd
  cases hd

end Progress

/-- A process ends if what it simulates does. -/
theorem acc_of_simulated {α β : Type} {stepA : α → α → Prop} {stepB : β → β → Prop} {R : β → α → Prop}
    (hsimulated : ∀ {b b' a}, R b a → stepB b b' → ∃ a', stepA a a' ∧ R b' a') {a : α}
    (hacc : Acc (fun y x => stepA x y) a) {b : β} (hrelated : R b a) : Acc (fun y x => stepB x y) b := by
  induction hacc generalizing b with
  | intro a _ ih =>
    constructor
    intro b' hstep
    obtain ⟨a', hstep', hrelated'⟩ := hsimulated hrelated hstep
    exact ih a' hstep' hrelated'

end duplex
