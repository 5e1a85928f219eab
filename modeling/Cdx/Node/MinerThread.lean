import Cdx.Lib.Transition

namespace cdx

/-! The life of the mining thread. Any number of threads may call `StartMiningThread` and
    `StopMiningThread`, the loop may end by itself at any time, and it shares the mutex of the chain and that of the
    peers with the threads that handle messages and requests. -/

/-- How far a mining thread is: in `RunMinerLoop`, behind it, or with its flag cleared. -/
inductive ThreadPhase where
  /-- before the test of `stop` -/
  | checking
  /-- waits for the mutex of the chain -/
  | entering
  /-- has it, before the tests of `stopRequested` and `running` -/
  | entered
  | searching
  /-- has connected a block and waits for `peersMutex` -/
  | announcing
  | writing
  /-- has told the peers, before the statistics -/
  | booking
  | returned
  | cleared
deriving DecidableEq

/-- How far another thread is that takes the mutex of the chain, `peersMutex`, or the second inside the first. -/
inductive HandlerPhase where
  | outside
  | chain
  | chainWaiting
  | chainPeers
  | peers
deriving DecidableEq

/-- Who has a mutex. -/
inductive Owner where
  | miner (id : Nat)
  | handler (n : Nat)

/-- How a pass of the mining loop goes: there is nothing to mine on, a flag ends the search, the block that it finds is
    rejected, or it is accepted. -/
inductive PassEnd where
  | idle
  | interrupted
  | rejected
  | accepted

inductive HandlerAction where
  | lockChain
  | wantPeers
  | lockPeers
  | enterPeers
  | unlockPeers
  | unlockChain

namespace ThreadPhase

def hasChain : ThreadPhase → Bool
  | .entered | .searching | .announcing | .writing | .booking => true
  | .checking | .entering | .returned | .cleared => false

def hasPeers : ThreadPhase → Bool
  | .writing => true
  | .checking | .entering | .entered | .searching | .announcing | .booking | .returned | .cleared => false

end ThreadPhase

namespace HandlerPhase

def hasChain : HandlerPhase → Bool
  | .chain | .chainWaiting | .chainPeers => true
  | .outside | .peers => false

def hasPeers : HandlerPhase → Bool
  | .chainPeers | .peers => true
  | .outside | .chain | .chainWaiting => false

end HandlerPhase

/-- The next statement of the call that holds `g_minerMutex`. -/
inductive MinerCall where
  | startCheck
  | startJoin
  | startRequested
  | startRunning
  | startActive
  | startThread
  | stopCheck
  | stopRequested
  | stopJoin
  | stopRunning
  | stopActive

/-- The variables that the calls and the threads share. `thread` is the thread that `g_minerThread` stands
    for while it is joinable; `threads` are those that have not ended; `chain` and `peers` are the owners of the two
    mutexes. -/
structure MinerControl where
  holder : Option MinerCall := none
  active : Bool := false
  stopRequested : Bool := false
  running : Bool := false
  stop : Bool := false
  thread : Option Nat := none
  threads : Nat → Option ThreadPhase := fun _ => none
  spawned : Nat := 0
  terminated : Bool := false
  chain : Option Owner := none
  peers : Option Owner := none
  handlers : Nat → HandlerPhase := fun _ => .outside

/-- Someone calls `StartMiningThread` or `StopMiningThread` and gets `g_minerMutex`; the call goes on by a statement;
    a mining thread goes on, where the rest of its pass and whether it has mined enough blocks may matter; another
    thread takes or releases a mutex; the process is told to stop. -/
inductive ControlEvent where
  | start
  | stop
  | call
  | thread (id : Nat) (pass : PassEnd) (enough : Bool)
  | handler (n : Nat) (action : HandlerAction)
  | signal

namespace MinerControl

/-- `if (g_minerThread.joinable()) g_minerThread.join()`, which waits for the end of the thread. -/
def join (s : MinerControl) (next : MinerCall) : Option MinerControl :=
  match s.thread with
  | none => some { s with holder := some next }
  | some id => if s.threads id = none then some { s with thread := none, holder := some next } else none

def execute (s : MinerControl) : MinerCall → Option MinerControl
  | .startCheck => some { s with holder := if s.active then none else some .startJoin }
  | .startJoin => s.join .startRequested
  | .startRequested => some { s with stopRequested := false, holder := some .startRunning }
  | .startRunning => some { s with running := true, holder := some .startActive }
  | .startActive => some { s with active := true, holder := some .startThread }
  -- To assign to a thread that is joinable calls `std::terminate`.
  | .startThread => some { s with
      terminated := s.terminated || s.thread.isSome
      thread := some s.spawned
      threads := Function.update s.threads s.spawned (some .checking)
      spawned := s.spawned + 1
      holder := none }
  | .stopCheck => some { s with holder := if s.active then some .stopRequested else none }
  | .stopRequested => some { s with stopRequested := true, holder := some .stopJoin }
  | .stopJoin => s.join .stopRunning
  | .stopRunning => some { s with running := false, holder := some .stopActive }
  | .stopActive => some { s with active := false, holder := none }

def goto (s : MinerControl) (id : Nat) (phase : ThreadPhase) : MinerControl :=
  { s with threads := Function.update s.threads id (some phase) }

/-- The thread goes on: `RunMinerLoop`, then the flag. `continue`, `break` and the end of the block release the mutex of
    the chain. -/
def advance (s : MinerControl) (id : Nat) (pass : PassEnd) (enough : Bool) : ThreadPhase → Option MinerControl
  | .checking => some (s.goto id (if s.stop then .returned else .entering))
  | .entering => if s.chain.isSome then none else some { s.goto id .entered with chain := some (.miner id) }
  | .entered =>
    if s.stopRequested || !s.running then some { s.goto id .returned with chain := none }
    else some (s.goto id .searching)
  | .searching =>
    match pass with
    | .idle | .rejected => some { s.goto id .checking with chain := none }
    | .interrupted => if s.stop || s.stopRequested then some { s.goto id .checking with chain := none } else none
    | .accepted => some (s.goto id .announcing)
  | .announcing => if s.peers.isSome then none else some { s.goto id .writing with peers := some (.miner id) }
  | .writing => some { s.goto id .booking with peers := none }
  | .booking => some { s.goto id (if enough then .returned else .checking) with chain := none }
  | .returned => some { s.goto id .cleared with active := false }
  | .cleared => some { s with threads := Function.update s.threads id none }

def gotoHandler (s : MinerControl) (n : Nat) (phase : HandlerPhase) : MinerControl :=
  { s with handlers := Function.update s.handlers n phase }

/-- `HandleBlock` and the like: the mutex of the chain is never taken inside that of the peers. -/
def act (s : MinerControl) (n : Nat) : HandlerAction → HandlerPhase → Option MinerControl
  | .lockChain, .outside =>
    if s.chain.isSome then none else some { s.gotoHandler n .chain with chain := some (.handler n) }
  | .wantPeers, .chain => some (s.gotoHandler n .chainWaiting)
  | .lockPeers, .chainWaiting =>
    if s.peers.isSome then none else some { s.gotoHandler n .chainPeers with peers := some (.handler n) }
  | .enterPeers, .outside =>
    if s.peers.isSome then none else some { s.gotoHandler n .peers with peers := some (.handler n) }
  | .unlockPeers, .chainPeers => some { s.gotoHandler n .chain with peers := none }
  | .unlockPeers, .peers => some { s.gotoHandler n .outside with peers := none }
  | .unlockChain, .chain => some { s.gotoHandler n .outside with chain := none }
  | _, _ => none

def step (s : MinerControl) : ControlEvent → Option MinerControl
  | .start => if s.holder.isSome then none else some { s with holder := some .startCheck }
  | .stop => if s.holder.isSome then none else some { s with holder := some .stopCheck }
  | .call => s.holder.bind s.execute
  | .thread id pass enough => (s.threads id).bind (s.advance id pass enough)
  | .handler n action => s.act n action (s.handlers n)
  | .signal => some { s with stop := true }

/-- What a call knows at each of its statements. -/
def Knows (s : MinerControl) : Option MinerCall → Prop
  | some .startJoin => s.active = false
  | some .startThread => s.active = true ∧ s.thread = none
  | some .stopJoin => s.stopRequested = true
  | some .startRequested | some .startRunning | some .startActive | some .stopRunning | some .stopActive =>
    s.thread = none
  | some .startCheck | some .stopCheck | some .stopRequested | none => True

structure Controlled (s : MinerControl) : Prop where
  alive : s.terminated = false
  only : ∀ id, s.threads id ≠ none → s.thread = some id
  flagged : ∀ id phase, s.threads id = some phase → phase ≠ .cleared → s.active = true
  knows : s.Knows s.holder

theorem controlled_initial : Controlled {} where
  alive := rfl
  only id hid := absurd rfl hid
  flagged id phase hphase := by cases hphase
  knows := trivial

variable {s s' : MinerControl}

/-- Without a joinable thread there is none at all. -/
theorem Controlled.none_of_thread (hs : s.Controlled) (hthread : s.thread = none) (id : Nat) : s.threads id = none := by
  by_contra hid
  have honly := hs.only id hid
  rw [hthread] at honly
  cases honly

theorem join_eq_some {next : MinerCall} (hjoin : s.join next = some s') :
    (s.thread = none ∧ s' = { s with holder := some next }) ∨
      ∃ id, s.thread = some id ∧ s.threads id = none ∧ s' = { s with thread := none, holder := some next } := by
  unfold join at hjoin
  split at hjoin
  next hthread =>
    cases hjoin
    exact Or.inl ⟨hthread, rfl⟩
  next id hthread =>
    split at hjoin
    next hended =>
      cases hjoin
      exact Or.inr ⟨id, hthread, hended, rfl⟩
    · cases hjoin

theorem Controlled.join {next : MinerCall} (hs : s.Controlled)
    (hnext : ∀ s : MinerControl, s.thread = none → s.Knows (some next)) (hjoin : s.join next = some s') :
    s'.Controlled := by
  obtain ⟨hthread, rfl⟩ | ⟨id, hthread, hended, rfl⟩ := join_eq_some hjoin
  · exact ⟨hs.alive, hs.only, hs.flagged, hnext _ hthread⟩
  · refine ⟨hs.alive, ?_, hs.flagged, hnext _ rfl⟩
    -- The only thread there could be is the one that has ended.
    intro id' hid'
    obtain rfl : id = id' := Option.some.inj (hthread.symm.trans (hs.only id' hid'))
    exact absurd hended hid'

theorem Controlled.execute {call : MinerCall} (hs : s.Controlled) (hholder : s.holder = some call)
    (hexecute : s.execute call = some s') : s'.Controlled := by
  have hknows := hs.knows
  rw [hholder] at hknows
  cases call with
  | startCheck =>
    by_cases hactive : s.active = true
    · rw [MinerControl.execute, if_pos hactive] at hexecute
      cases hexecute
      exact ⟨hs.alive, hs.only, hs.flagged, trivial⟩
    · rw [MinerControl.execute, if_neg hactive] at hexecute
      cases hexecute
      exact ⟨hs.alive, hs.only, hs.flagged, Bool.eq_false_of_not_eq_true hactive⟩
  | startJoin =>
    have hnext : ∀ s : MinerControl, s.thread = none → s.Knows (some .startRequested) := fun _ hthread => hthread
    exact hs.join hnext hexecute
  | startRequested =>
    cases hexecute
    exact ⟨hs.alive, hs.only, hs.flagged, hknows⟩
  | startRunning =>
    cases hexecute
    exact ⟨hs.alive, hs.only, hs.flagged, hknows⟩
  | startActive =>
    cases hexecute
    exact ⟨hs.alive, hs.only, fun _ _ _ _ => rfl, rfl, hknows⟩
  | startThread =>
    obtain ⟨hactive, hthread⟩ := hknows
    cases hexecute
    refine ⟨?_, ?_, fun _ _ _ _ => hactive, trivial⟩
    · simp [hs.alive, hthread]
    · intro id hid
      by_cases hsame : id = s.spawned
      · rw [hsame]
      · have hother : Function.update s.threads s.spawned (some .checking) id ≠ none := hid
        rw [Function.update_of_ne hsame] at hother
        exact absurd (hs.none_of_thread hthread id) hother
  | stopCheck =>
    by_cases hactive : s.active = true
    · rw [MinerControl.execute, if_pos hactive] at hexecute
      cases hexecute
      exact ⟨hs.alive, hs.only, hs.flagged, trivial⟩
    · rw [MinerControl.execute, if_neg hactive] at hexecute
      cases hexecute
      exact ⟨hs.alive, hs.only, hs.flagged, trivial⟩
  | stopRequested =>
    cases hexecute
    exact ⟨hs.alive, hs.only, hs.flagged, rfl⟩
  | stopJoin =>
    have hnext : ∀ s : MinerControl, s.thread = none → s.Knows (some .stopRunning) := fun _ hthread => hthread
    exact hs.join hnext hexecute
  | stopRunning =>
    cases hexecute
    exact ⟨hs.alive, hs.only, hs.flagged, hknows⟩
  | stopActive =>
    cases hexecute
    refine ⟨hs.alive, hs.only, ?_, trivial⟩
    intro id phase hphase
    rw [hs.none_of_thread hknows id] at hphase
    cases hphase

/-- A thread that moves on stays the only one. -/
theorem Controlled.only_update (hs : s.Controlled) {id : Nat} (hid : s.threads id ≠ none) (phase : Option ThreadPhase)
    (id' : Nat) (hlive : Function.update s.threads id phase id' ≠ none) : s.thread = some id' := by
  by_cases hsame : id' = id
  · rw [hsame]
    exact hs.only id hid
  · rw [Function.update_of_ne hsame] at hlive
    exact hs.only id' hlive

/-- While there is a thread, no call relies on the flag being set. -/
theorem Knows.clear {holder : Option MinerCall} {threads : Nat → Option ThreadPhase} (hthread : s.thread ≠ none)
    (hknows : s.Knows holder) : ({ s with active := false, threads := threads } : MinerControl).Knows holder := by
  cases holder with
  | none => exact trivial
  | some call =>
    cases call with
    | startThread => exact absurd hknows.2 hthread
    | startJoin => exact rfl
    | _ => exact hknows

/-- A thread that is not behind the clearing of its flag may go anywhere. -/
theorem Controlled.goto (hs : s.Controlled) {id : Nat} {phase : ThreadPhase} (hphase : s.threads id = some phase)
    (hflag : phase ≠ .cleared) {next : ThreadPhase} {chain peers : Option Owner} :
    Controlled { s.goto id next with chain := chain, peers := peers } := by
  have hactive := hs.flagged id phase hphase hflag
  refine ⟨hs.alive, hs.only_update ?_ _, fun _ _ _ _ => hactive, hs.knows⟩
  rw [hphase]
  exact Option.some_ne_none phase

theorem Controlled.advance (hs : s.Controlled) {id : Nat} {pass : PassEnd} {enough : Bool} {phase : ThreadPhase}
    (hphase : s.threads id = some phase) (hadvance : s.advance id pass enough phase = some s') : s'.Controlled := by
  have hid : s.threads id ≠ none := by
    rw [hphase]
    exact Option.some_ne_none phase
  cases phase with
  | checking | writing | booking =>
    cases hadvance
    exact hs.goto hphase (by decide)
  | entering | entered | announcing =>
    simp only [MinerControl.advance] at hadvance
    split at hadvance <;> cases hadvance
    all_goals exact hs.goto hphase (by decide)
  | searching =>
    simp only [MinerControl.advance] at hadvance
    split at hadvance
    · cases hadvance
      exact hs.goto hphase (by decide)
    · cases hadvance
      exact hs.goto hphase (by decide)
    · split at hadvance <;> cases hadvance
      exact hs.goto hphase (by decide)
    · cases hadvance
      exact hs.goto hphase (by decide)
  | returned =>
    cases hadvance
    have hthread := hs.only id hid
    have hjoinable : s.thread ≠ none := by
      rw [hthread]
      exact Option.some_ne_none id
    refine ⟨hs.alive, hs.only_update hid _, ?_, Knows.clear hjoinable hs.knows⟩
    -- There is no other thread, and this one has cleared the flag.
    intro id' phase (hphase' : Function.update s.threads id (some .cleared) id' = some phase) hne
    have hlive : Function.update s.threads id (some .cleared) id' ≠ none := by
      rw [hphase']
      exact Option.some_ne_none phase
    have hsame : id' = id := Option.some.inj ((hs.only_update hid _ id' hlive).symm.trans hthread)
    rw [hsame, Function.update_self] at hphase'
    exact absurd (Option.some.inj hphase').symm hne
  | cleared =>
    cases hadvance
    refine ⟨hs.alive, hs.only_update hid _, ?_, hs.knows⟩
    intro id' phase (hphase' : Function.update s.threads id none id' = some phase) hne
    by_cases hsame : id' = id
    · rw [hsame, Function.update_self] at hphase'
      cases hphase'
    · rw [Function.update_of_ne hsame] at hphase'
      exact hs.flagged id' phase hphase' hne

/-- What another thread can change. -/
theorem act_eq_some {n : Nat} {action : HandlerAction} {phase : HandlerPhase} (hact : s.act n action phase = some s') :
    ∃ next chain peers, s' = { s.gotoHandler n next with chain := chain, peers := peers } := by
  unfold act at hact
  repeat' split at hact
  all_goals cases hact <;> exact ⟨_, _, _, rfl⟩

theorem Controlled.act (hs : s.Controlled) {n : Nat} {action : HandlerAction} {phase : HandlerPhase}
    (hact : s.act n action phase = some s') : s'.Controlled := by
  obtain ⟨next, chain, peers, rfl⟩ := act_eq_some hact
  exact ⟨hs.alive, hs.only, hs.flagged, hs.knows⟩

theorem Controlled.step {event : ControlEvent} (hs : s.Controlled) (hstep : s.step event = some s') : s'.Controlled := by
  cases event with
  | start =>
    simp only [MinerControl.step] at hstep
    split at hstep
    · cases hstep
    · cases hstep
      exact ⟨hs.alive, hs.only, hs.flagged, trivial⟩
  | stop =>
    simp only [MinerControl.step] at hstep
    split at hstep
    · cases hstep
    · cases hstep
      exact ⟨hs.alive, hs.only, hs.flagged, trivial⟩
  | call =>
    obtain ⟨call, hholder, hexecute⟩ := Option.bind_eq_some_iff.mp hstep
    exact hs.execute hholder hexecute
  | thread id pass enough =>
    obtain ⟨phase, hphase, hadvance⟩ := Option.bind_eq_some_iff.mp hstep
    exact hs.advance hphase hadvance
  | handler n action => exact hs.act hstep
  | signal =>
    cases hstep
    exact ⟨hs.alive, hs.only, hs.flagged, hs.knows⟩

section Mutexes

/-- The owner is at a statement where it has the mutex. -/
def Inside (s : MinerControl) (thread : ThreadPhase → Bool) (handler : HandlerPhase → Bool) : Owner → Prop
  | .miner id => ∃ phase, s.threads id = some phase ∧ thread phase = true
  | .handler n => ∃ phase, s.handlers n = phase ∧ handler phase = true

/-- Whoever has a mutex is at a statement where it has it. -/
structure Locked (s : MinerControl) : Prop where
  chain : ∀ owner, s.chain = some owner → s.Inside ThreadPhase.hasChain HandlerPhase.hasChain owner
  peers : ∀ owner, s.peers = some owner → s.Inside ThreadPhase.hasPeers HandlerPhase.hasPeers owner

theorem locked_initial : Locked {} where
  chain := nofun
  peers := nofun

variable {thread : ThreadPhase → Bool} {handler : HandlerPhase → Bool} {owner : Owner}

/-- A thread that moves on keeps what it has, unless its next statement is behind the release. -/
theorem Inside.update {id : Nat} {phase : ThreadPhase} {next : Option ThreadPhase} (hinside : s.Inside thread handler owner)
    (hphase : s.threads id = some phase) (hkeeps : thread phase = true → ∃ later, next = some later ∧ thread later = true) :
    ({ s with threads := Function.update s.threads id next } : MinerControl).Inside thread handler owner := by
  cases owner with
  | handler n => exact hinside
  | miner id' =>
    obtain ⟨phase', hphase', hhas⟩ := hinside
    by_cases hsame : id' = id
    · subst hsame
      obtain rfl := Option.some.inj (hphase.symm.trans hphase')
      obtain ⟨later, rfl, hhas'⟩ := hkeeps hhas
      exact ⟨later, Function.update_self .., hhas'⟩
    · exact ⟨phase', (Function.update_of_ne hsame ..).trans hphase', hhas⟩

theorem Inside.goto {id : Nat} {phase next : ThreadPhase} (hinside : s.Inside thread handler owner)
    (hphase : s.threads id = some phase) (hkeeps : thread phase = true → thread next = true) :
    (s.goto id next).Inside thread handler owner :=
  hinside.update hphase fun hhas => ⟨next, rfl, hkeeps hhas⟩

theorem Inside.gotoHandler {n : Nat} {phase next : HandlerPhase} (hinside : s.Inside thread handler owner)
    (hphase : s.handlers n = phase) (hkeeps : handler phase = true → handler next = true) :
    (s.gotoHandler n next).Inside thread handler owner := by
  cases owner with
  | miner id => exact hinside
  | handler n' =>
    obtain ⟨phase', hphase', hhas⟩ := hinside
    by_cases hsame : n' = n
    · subst hsame
      obtain rfl := hphase.symm.trans hphase'
      exact ⟨next, Function.update_self .., hkeeps hhas⟩
    · exact ⟨phase', (Function.update_of_ne hsame ..).trans hphase', hhas⟩

theorem Locked.execute {call : MinerCall} (hlocked : s.Locked) (hs : s.Controlled) (hholder : s.holder = some call)
    (hexecute : s.execute call = some s') : s'.Locked := by
  cases call with
  | startJoin | stopJoin =>
    obtain ⟨-, rfl⟩ | ⟨-, -, -, rfl⟩ := join_eq_some hexecute <;> exact ⟨hlocked.chain, hlocked.peers⟩
  | startThread =>
    have hknows := hs.knows
    rw [hholder] at hknows
    have hnone := hs.none_of_thread hknows.2
    cases hexecute
    -- There is no thread yet, so the owner of a mutex is another one.
    refine ⟨fun owner howner => ?_, fun owner howner => ?_⟩
    · cases owner with
      | handler n => exact hlocked.chain _ howner
      | miner id =>
        obtain ⟨phase, hphase, -⟩ := hlocked.chain _ howner
        exact absurd ((hnone id).symm.trans hphase) (by simp)
    · cases owner with
      | handler n => exact hlocked.peers _ howner
      | miner id =>
        obtain ⟨phase, hphase, -⟩ := hlocked.peers _ howner
        exact absurd ((hnone id).symm.trans hphase) (by simp)
  | startCheck | startRequested | startRunning | startActive | stopCheck | stopRequested | stopRunning | stopActive =>
    cases hexecute
    exact ⟨hlocked.chain, hlocked.peers⟩

/-- A thread that goes on inside the mutexes that it has, or outside of them. -/
theorem Locked.goto (hlocked : s.Locked) {id : Nat} {phase next : ThreadPhase} (hphase : s.threads id = some phase)
    (hchain : phase.hasChain = true → next.hasChain = true) (hpeers : phase.hasPeers = true → next.hasPeers = true) :
    (s.goto id next).Locked :=
  ⟨fun owner howner => (hlocked.chain owner howner).goto hphase hchain,
    fun owner howner => (hlocked.peers owner howner).goto hphase hpeers⟩

/-- A thread that gives the mutex of the chain back. -/
theorem Locked.leaveChain (hlocked : s.Locked) {id : Nat} {phase : ThreadPhase} (hphase : s.threads id = some phase)
    (hpeers : phase.hasPeers = false) (next : ThreadPhase) : Locked { s.goto id next with chain := none } := by
  refine ⟨nofun, fun owner howner => ?_⟩
  exact (hlocked.peers owner howner).goto hphase fun hhas => absurd (hhas.symm.trans hpeers) (by decide)

theorem Locked.advance (hlocked : s.Locked) {id : Nat} {pass : PassEnd} {enough : Bool} {phase : ThreadPhase}
    (hphase : s.threads id = some phase) (hadvance : s.advance id pass enough phase = some s') : s'.Locked := by
  cases phase with
  | checking =>
    cases hadvance
    exact hlocked.goto hphase (fun hhas => by cases hhas) (fun hhas => by cases hhas)
  | entering =>
    simp only [MinerControl.advance] at hadvance
    split at hadvance <;> cases hadvance
    refine ⟨?_, fun owner howner => (hlocked.peers owner howner).goto hphase (by decide)⟩
    rintro _ ⟨⟩
    exact ⟨_, Function.update_self .., rfl⟩
  | entered =>
    simp only [MinerControl.advance] at hadvance
    split at hadvance <;> cases hadvance
    · exact hlocked.leaveChain hphase rfl _
    · exact hlocked.goto hphase (by decide) (by decide)
  | searching =>
    simp only [MinerControl.advance] at hadvance
    split at hadvance
    · cases hadvance
      exact hlocked.leaveChain hphase rfl _
    · cases hadvance
      exact hlocked.leaveChain hphase rfl _
    · split at hadvance <;> cases hadvance
      exact hlocked.leaveChain hphase rfl _
    · cases hadvance
      exact hlocked.goto hphase (by decide) (by decide)
  | announcing =>
    simp only [MinerControl.advance] at hadvance
    split at hadvance <;> cases hadvance
    refine ⟨fun owner howner => (hlocked.chain owner howner).goto hphase (by decide), ?_⟩
    rintro _ ⟨⟩
    exact ⟨_, Function.update_self .., rfl⟩
  | writing =>
    cases hadvance
    exact ⟨fun owner howner => (hlocked.chain owner howner).goto hphase (by decide), nofun⟩
  | booking =>
    cases hadvance
    exact hlocked.leaveChain hphase rfl _
  | returned =>
    cases hadvance
    have hnext : (s.goto id .cleared).Locked := hlocked.goto hphase (by decide) (by decide)
    exact ⟨hnext.chain, hnext.peers⟩
  | cleared =>
    cases hadvance
    -- The thread has neither mutex, so it is not the owner of one.
    refine ⟨fun owner howner => ?_, fun owner howner => ?_⟩
    · exact (hlocked.chain owner howner).update hphase nofun
    · exact (hlocked.peers owner howner).update hphase nofun

theorem Locked.act (hlocked : s.Locked) {n : Nat} {action : HandlerAction} {phase : HandlerPhase}
    (hphase : s.handlers n = phase) (hact : s.act n action phase = some s') : s'.Locked := by
  unfold MinerControl.act at hact
  split at hact
  · split at hact <;> cases hact
    refine ⟨?_, fun owner howner => (hlocked.peers owner howner).gotoHandler hphase (by decide)⟩
    rintro _ ⟨⟩
    exact ⟨_, Function.update_self .., rfl⟩
  · cases hact
    exact ⟨fun owner howner => (hlocked.chain owner howner).gotoHandler hphase (by decide),
      fun owner howner => (hlocked.peers owner howner).gotoHandler hphase (by decide)⟩
  · split at hact <;> cases hact
    refine ⟨fun owner howner => (hlocked.chain owner howner).gotoHandler hphase (by decide), ?_⟩
    rintro _ ⟨⟩
    exact ⟨_, Function.update_self .., rfl⟩
  · split at hact <;> cases hact
    refine ⟨fun owner howner => (hlocked.chain owner howner).gotoHandler hphase (by decide), ?_⟩
    rintro _ ⟨⟩
    exact ⟨_, Function.update_self .., rfl⟩
  · cases hact
    exact ⟨fun owner howner => (hlocked.chain owner howner).gotoHandler hphase (by decide),
      nofun⟩
  · cases hact
    exact ⟨fun owner howner => (hlocked.chain owner howner).gotoHandler hphase (by decide),
      nofun⟩
  · cases hact
    exact ⟨nofun,
      fun owner howner => (hlocked.peers owner howner).gotoHandler hphase (by decide)⟩
  · cases hact

theorem Locked.step {event : ControlEvent} (hlocked : s.Locked) (hs : s.Controlled) (hstep : s.step event = some s') :
    s'.Locked := by
  cases event with
  | start | stop =>
    simp only [MinerControl.step] at hstep
    split at hstep <;> cases hstep
    exact ⟨hlocked.chain, hlocked.peers⟩
  | call =>
    obtain ⟨call, hholder, hexecute⟩ := Option.bind_eq_some_iff.mp hstep
    exact hlocked.execute hs hholder hexecute
  | thread id pass enough =>
    obtain ⟨phase, hphase, hadvance⟩ := Option.bind_eq_some_iff.mp hstep
    exact hlocked.advance hphase hadvance
  | handler n action => exact hlocked.act rfl hstep
  | signal =>
    cases hstep
    exact ⟨hlocked.chain, hlocked.peers⟩

end Mutexes

/-- The events by which a call gets on: its own statements, those of a thread that finds no block and has not mined
    enough, and those by which another thread that has a mutex comes to release it. -/
def Own : ControlEvent → Prop
  | .call | .thread _ .interrupted false => True
  | .handler _ .lockPeers | .handler _ .unlockPeers | .handler _ .unlockChain => True
  | .start | .stop | .thread _ _ _ | .handler _ _ | .signal => False

/-- How many statements are left. -/
def callLeft : Option MinerCall → Nat
  | none => 0
  | some .startThread | some .stopActive => 1
  | some .startActive | some .stopRunning => 2
  | some .startRunning | some .stopJoin => 3
  | some .startRequested | some .stopRequested => 4
  | some .startJoin | some .stopCheck => 5
  | some .startCheck => 6

/-- How many steps are left once a stop is requested. -/
def threadLeft : Option ThreadPhase → Nat
  | none => 0
  | some .cleared => 1
  | some .returned => 2
  | some .entered => 3
  | some .entering => 4
  | some .checking => 5
  | some .booking => 6
  | some .writing => 7
  | some .announcing => 8
  | some .searching => 9

def handlerLeft : HandlerPhase → Nat
  | .chainWaiting => 4
  | .chainPeers => 2
  | .outside | .chain | .peers => 1

/-- What another thread that has the mutex of the chain has left. -/
def chainLeft (handlers : Nat → HandlerPhase) : Option Owner → Nat
  | some (.handler n) => handlerLeft (handlers n)
  | some (.miner _) | none => 0

def peersLeft : Option Owner → Nat
  | some (.handler _) => 1
  | some (.miner _) | none => 0

/-- What is left of the call, of the thread it may have to wait for, and of those for which that thread may wait. -/
def left (s : MinerControl) : Nat :=
  10 * callLeft s.holder + threadLeft (s.thread.bind s.threads) + chainLeft s.handlers s.chain + peersLeft s.peers

def Moves (s : MinerControl) : Prop := ∃ event s', Own event ∧ s.step event = some s' ∧ s'.left < s.left

/-- A thread that goes on takes no mutex from the others. -/
theorem moves_of_advance {id : Nat} {phase : ThreadPhase} (active : Bool) (next : Option ThreadPhase)
    (chain peers : Option Owner) (hthread : s.thread = some id) (hphase : s.threads id = some phase)
    (hadvance : s.advance id .interrupted false phase = some { s with
      active := active, threads := Function.update s.threads id next, chain := chain, peers := peers })
    (hnext : threadLeft next < threadLeft (some phase)) (hchain : chainLeft s.handlers chain ≤ chainLeft s.handlers s.chain)
    (hpeers : peersLeft peers ≤ peersLeft s.peers) : s.Moves := by
  have hstep : s.step (.thread id .interrupted false) = s.advance id .interrupted false phase := by
    rw [MinerControl.step, hphase]
    rfl
  refine ⟨.thread id .interrupted false, _, trivial, hstep.trans hadvance, ?_⟩
  simp only [left, hthread, Option.bind_some, Function.update_self, hphase]
  omega

theorem moves_of_act {n : Nat} {phase : HandlerPhase} (action : HandlerAction) (next : HandlerPhase)
    (chain peers : Option Owner) (hphase : s.handlers n = phase)
    (hact : s.act n action phase = some { s.gotoHandler n next with chain := chain, peers := peers })
    (hown : Own (.handler n action))
    (hless : chainLeft (Function.update s.handlers n next) chain + peersLeft peers <
      chainLeft s.handlers s.chain + peersLeft s.peers) : s.Moves := by
  rw [← hphase] at hact
  refine ⟨.handler n action, _, hown, hact, ?_⟩
  unfold left
  change 10 * callLeft s.holder + threadLeft (s.thread.bind s.threads) +
    chainLeft (Function.update s.handlers n next) chain + peersLeft peers < _
  omega

/-- The weight of another thread that goes on. -/
theorem chainLeft_update {handlers : Nat → HandlerPhase} {n : Nat} {next : HandlerPhase}
    (hnext : handlerLeft next ≤ handlerLeft (handlers n)) (chain : Option Owner) :
    chainLeft (Function.update handlers n next) chain ≤ chainLeft handlers chain := by
  match chain with
  | none => exact le_refl _
  | some (.miner id) => exact le_refl _
  | some (.handler n') =>
    by_cases hsame : n' = n
    · subst hsame
      simpa only [chainLeft, Function.update_self] using hnext
    · simp only [chainLeft, Function.update_of_ne hsame, le_refl]

/-- Whoever has `peersMutex` gives it back. -/
theorem Controlled.peers_move (hs : s.Controlled) (hlocked : s.Locked) {owner : Owner} (hpeers : s.peers = some owner) :
    s.Moves := by
  have hinside := hlocked.peers owner hpeers
  cases owner with
  | miner id =>
    obtain ⟨phase, hphase, hhas⟩ := hinside
    have hthread := hs.only id (by rw [hphase]; exact Option.some_ne_none phase)
    cases phase <;> cases hhas
    exact moves_of_advance _ _ _ _ hthread hphase rfl (by decide) (le_refl _) (Nat.zero_le _)
  | handler n =>
    obtain ⟨phase, hphase, hhas⟩ := hinside
    have hunlock : ∀ next, handlerLeft next ≤ handlerLeft phase →
        s.act n .unlockPeers phase = some { s.gotoHandler n next with peers := none } → s.Moves := by
      intro next hnext hact
      rw [← hphase] at hnext
      have hchain := chainLeft_update hnext s.chain
      refine moves_of_act .unlockPeers next s.chain none hphase hact trivial ?_
      rw [hpeers, peersLeft, peersLeft]
      omega
    cases phase <;> cases hhas
    · exact hunlock .chain (by decide) rfl
    · exact hunlock .outside (by decide) rfl

/-- Another thread that has the mutex of the chain gives it back. -/
theorem Controlled.chain_moves (hs : s.Controlled) (hlocked : s.Locked) {n : Nat} (hchain : s.chain = some (.handler n)) :
    s.Moves := by
  obtain ⟨phase, hphase, hhas⟩ := hlocked.chain _ hchain
  cases phase <;> cases hhas
  · refine moves_of_act .unlockChain .outside none s.peers hphase rfl trivial ?_
    simp [hchain, chainLeft, hphase, handlerLeft]
  · -- It waits for the mutex of the peers in turn, whose owner waits for nobody.
    cases hpeers : s.peers with
    | some owner => exact hs.peers_move hlocked hpeers
    | none =>
      have hact : s.act n .lockPeers .chainWaiting =
          some { s.gotoHandler n .chainPeers with chain := s.chain, peers := some (.handler n) } := by
        rw [MinerControl.act, hpeers]
        rfl
      refine moves_of_act .lockPeers .chainPeers s.chain (some (.handler n)) hphase hact trivial ?_
      simp [hchain, hpeers, chainLeft, peersLeft, hphase, handlerLeft]
  · refine moves_of_act .unlockPeers .chain s.chain none hphase rfl trivial ?_
    simp only [hchain, chainLeft, Function.update_self, hphase, handlerLeft, peersLeft]
    omega

/-- Where a call waits for a thread, the thread can go on, or the one for which it waits. -/
theorem Controlled.thread_moves (hs : s.Controlled) (hlocked : s.Locked) {id : Nat} {phase : ThreadPhase}
    (hthread : s.thread = some id) (hphase : s.threads id = some phase)
    (hstop : phase ≠ .cleared → s.stopRequested = true) : s.Moves := by
  cases phase with
  | checking =>
    refine moves_of_advance _ _ _ _ hthread hphase rfl ?_ (le_refl _) (le_refl _)
    cases s.stop <;> decide
  | entering =>
    match hchain : s.chain with
    | some (.handler n) => exact hs.chain_moves hlocked hchain
    | some (.miner id') =>
      -- There is no other thread, and this one is outside.
      obtain ⟨phase', hphase', hhas⟩ := hlocked.chain _ hchain
      have hsame : s.thread = some id' := hs.only id' (by rw [hphase']; exact Option.some_ne_none phase')
      obtain rfl := Option.some.inj (hthread.symm.trans hsame)
      obtain rfl := Option.some.inj (hphase.symm.trans hphase')
      cases hhas
    | none =>
      refine moves_of_advance s.active (some .entered) (some (.miner id)) s.peers hthread hphase ?_ (by decide)
        (Nat.zero_le _) (le_refl _)
      rw [MinerControl.advance, hchain]
      rfl
  | entered =>
    have hflag : (s.stopRequested || !s.running) = true := by
      rw [hstop (by decide), Bool.true_or]
    exact moves_of_advance s.active (some .returned) none s.peers hthread hphase (if_pos hflag) (by decide)
      (Nat.zero_le _) (le_refl _)
  | searching =>
    have hflag : (s.stop || s.stopRequested) = true := by
      rw [hstop (by decide), Bool.or_true]
    exact moves_of_advance s.active (some .checking) none s.peers hthread hphase (if_pos hflag) (by decide)
      (Nat.zero_le _) (le_refl _)
  | announcing =>
    cases hpeers : s.peers with
    | some owner => exact hs.peers_move hlocked hpeers
    | none =>
      refine moves_of_advance s.active (some .writing) s.chain (some (.miner id)) hthread hphase ?_ (by decide)
        (le_refl _) (Nat.zero_le _)
      rw [MinerControl.advance, hpeers]
      rfl
  | writing => exact moves_of_advance _ _ _ _ hthread hphase rfl (by decide) (le_refl _) (Nat.zero_le _)
  | booking => exact moves_of_advance _ _ _ _ hthread hphase rfl (by decide) (Nat.zero_le _) (le_refl _)
  | returned => exact moves_of_advance _ _ _ _ hthread hphase rfl (by decide) (le_refl _) (le_refl _)
  | cleared => exact moves_of_advance _ _ _ _ hthread hphase rfl (by decide) (le_refl _) (le_refl _)

theorem Controlled.join_moves (hs : s.Controlled) (hlocked : s.Locked) {call next : MinerCall} (hholder : s.holder = some call)
    (hexecute : s.execute call = s.join next) (hless : callLeft (some next) < callLeft (some call))
    (hstop : ∀ id phase, s.threads id = some phase → phase ≠ .cleared → s.stopRequested = true) : s.Moves := by
  cases hthread : s.thread with
  | none =>
    refine ⟨.call, { s with holder := some next }, trivial, ?_, ?_⟩
    · simp [MinerControl.step, hholder, hexecute, MinerControl.join, hthread]
    · simp only [left, hholder, hthread]
      omega
  | some id =>
    cases hphase : s.threads id with
    | none =>
      refine ⟨.call, { s with thread := none, holder := some next }, trivial, ?_, ?_⟩
      · simp [MinerControl.step, hholder, hexecute, MinerControl.join, hthread, hphase]
      · simp only [left, hholder, hthread, Option.bind_some, Option.bind_none, hphase]
        omega
    | some phase => exact hs.thread_moves hlocked hthread hphase (hstop id phase hphase)

/-- A call that has `g_minerMutex` never hangs. -/
theorem Controlled.moves {call : MinerCall} (hs : s.Controlled) (hlocked : s.Locked) (hholder : s.holder = some call) :
    s.Moves := by
  have hknows := hs.knows
  rw [hholder] at hknows
  have hcall : ∀ s', s.execute call = some s' → s'.left < s.left → s.Moves := by
    intro s' hexecute hless
    refine ⟨.call, s', trivial, ?_, hless⟩
    rw [MinerControl.step, hholder]
    exact hexecute
  cases call with
  | startJoin =>
    apply hs.join_moves hlocked hholder rfl (by decide)
    intro id phase hphase hflag
    have hactive := hs.flagged id phase hphase hflag
    exact absurd (hactive.symm.trans hknows) (by decide)
  | stopJoin => exact hs.join_moves hlocked hholder rfl (by decide) fun _ _ _ _ => hknows
  | startCheck =>
    refine hcall _ rfl ?_
    cases hactive : s.active <;> simp [left, hholder, callLeft]
  | stopCheck =>
    refine hcall _ rfl ?_
    cases hactive : s.active <;> simp [left, hholder, callLeft]
  | startThread =>
    refine hcall _ rfl ?_
    simp [left, hholder, callLeft, hknows.2, threadLeft]
  | startRequested | startRunning | startActive | stopRequested | stopRunning | stopActive =>
    refine hcall _ rfl ?_
    simp [left, hholder, callLeft]

/-- Whoever has `g_minerMutex` can give it back. -/
theorem Controlled.completes (hs : s.Controlled) (hlocked : s.Locked) :
    ∃ events s', (∀ event ∈ events, Own event) ∧ transition.run MinerControl.step s events = some s' ∧
      s'.holder = none := by
  induction hleft : s.left using Nat.strong_induction_on generalizing s with
  | _ n ih =>
    cases hholder : s.holder with
    | none => exact ⟨[], s, by simp, rfl, hholder⟩
    | some call =>
      obtain ⟨event, next, hown, hstep, hless⟩ := hs.moves hlocked hholder
      rw [hleft] at hless
      obtain ⟨events, s', howns, hrun, hfree⟩ := ih next.left hless (hs.step hstep) (hlocked.step hs hstep) rfl
      refine ⟨event :: events, s', List.forall_mem_cons.mpr ⟨hown, howns⟩, ?_, hfree⟩
      rw [transition.run, hstep]
      exact hrun

/-- However the calls and the threads interleave: the process is not terminated, there is never a second mining
    thread, none is in the loop while the flag is clear or behind the join of a stop, and no call hangs as long as
    those who have one of the other mutexes go on. -/
theorem run_controlled {events : List ControlEvent} {final : MinerControl}
    (hrun : transition.run step {} events = some final) :
    final.terminated = false ∧ (∀ id id', final.threads id ≠ none → final.threads id' ≠ none → id = id') ∧
      (final.active = false → ∀ id phase, final.threads id = some phase → phase = .cleared) ∧
      (final.holder = some .stopActive → ∀ id, final.threads id = none) ∧
      ∃ own idle, (∀ event ∈ own, Own event) ∧ transition.run step final own = some idle ∧ idle.holder = none := by
  obtain ⟨hfinal, hlocked⟩ : final.Controlled ∧ final.Locked :=
    transition.run_invariant (I := fun s => s.Controlled ∧ s.Locked)
      (fun _ _ _ _ hs hstep => ⟨hs.1.step hstep, hs.2.step hs.1 hstep⟩) ⟨controlled_initial, locked_initial⟩ hrun
  refine ⟨hfinal.alive, ?_, ?_, ?_, hfinal.completes hlocked⟩
  · intro id id' hid hid'
    exact Option.some.inj ((hfinal.only id hid).symm.trans (hfinal.only id' hid'))
  · intro hclear id phase hphase
    by_contra hflag
    have hactive := hfinal.flagged id phase hphase hflag
    exact absurd (hactive.symm.trans hclear) (by decide)
  · intro hholder
    have hknows := hfinal.knows
    rw [hholder] at hknows
    exact hfinal.none_of_thread hknows

/-- A call to stop the thread waits for it, the thread for another one that has the mutex of the chain. -/
def waiting : MinerControl where
  holder := some .stopJoin
  active := true
  stopRequested := true
  running := true
  thread := some 0
  threads := Function.update (Function.update (fun _ => none) 0 (some .checking)) 0 (some .entering)
  spawned := 1
  chain := some (.handler 0)
  handlers := Function.update (fun _ => .outside) 0 .chain

theorem run_controlled_waiting :
    transition.run step {} [.start, .call, .call, .call, .call, .call, .call, .thread 0 .idle false,
      .handler 0 .lockChain, .stop, .call, .call] = some waiting ∧
    waiting.step .call = none ∧ (∀ id pass enough, waiting.step (.thread id pass enough) = none) ∧
    ∃ own idle, (∀ event ∈ own, Own event) ∧ transition.run step waiting own = some idle ∧ idle.holder = none := by
  have hrun : transition.run step {} [.start, .call, .call, .call, .call, .call, .call, .thread 0 .idle false,
      .handler 0 .lockChain, .stop, .call, .call] = some waiting := rfl
  refine ⟨hrun, rfl, ?_, (run_controlled hrun).2.2.2.2⟩
  intro id pass enough
  cases id with
  | zero => rfl
  | succ id => rfl

end MinerControl

end cdx
