import LightKV.RaftFiles
import LightKV.Runs
import LightKV.SerialCalls

/-!
# The threads that apply entries

`ApplyCommitted` is called with `mu_` held, by the handlers of AppendEntries on the RPC threads
and by `AdvanceCommitIndex` on the replication thread. It moves `last_applied_` to the next entry,
releases the lock while the state machine applies it, takes the lock again and goes on. Between
the release and the return other sections run, other calls of `ApplyCommitted` among them.

`Threads` is a node with its calls of `Apply` that are under way. What `Apply` does to the state
machine happens at one point, `finish`; the thread takes the lock again at some later time,
`resume`. `Apply` is given a reference into `log_`, which a section of another thread makes stale
when it clears or shortens the vector or makes it grow into a new array; what `Apply` then reads is
anything. Commands run through the server only behind `SetServer`, which the process calls
when the Raft threads are already running. Nothing reads the remaining fields: they record which
entries became committed, which calls of `Apply` began and ended, and what the state machine was
given since the last image.
-/

namespace LightKV.Raft

namespace Node

variable {σ : Type}

/-- The loop of `ApplyCommitted` up to the next command; `rounds` bounds the indices that it may
pass. An index that the log no longer holds is skipped. -/
def nextCommand : Nat → Node σ → Node σ × Option RaftLogEntry
  | 0, node => (node, none)
  | rounds + 1, node =>
      let advanced := { node with lastApplied := node.lastApplied + 1 }
      match node.log.entryAt (node.lastApplied + 1) with
      | none => nextCommand rounds advanced
      | some entry =>
          if entry.type = .command then (advanced, some entry) else nextCommand rounds advanced

/-- `ApplyCommitted` from its beginning, or from the end of an `Apply`, to the next call of
`Apply`. -/
def resumeApplying (node : Node σ) : Node σ × Option RaftLogEntry :=
  nextCommand (node.commitIndex - node.lastApplied) node

/-- Nothing between two indices is a command. -/
def NoCommand (log : RaftLog) (lower upper : Nat) : Prop :=
  ∀ entry, log.entryAt entry.index = some entry → lower < entry.index → entry.index ≤ upper →
    entry.type ≠ .command

theorem NoCommand.trans {log : RaftLog}
    (first : NoCommand log lower middle) (second : NoCommand log middle upper) :
    NoCommand log lower upper := by
  intro entry stored above below
  rcases lt_or_ge middle entry.index with beyond | here
  · exact second entry stored beyond below
  · exact first entry stored above here

/-- The loop has stopped at the first command, or passed all indices. -/
def Stops (rounds : Nat) (node : Node σ) (result : Node σ × Option RaftLogEntry) : Prop :=
  (∃ entry, result = ({ node with lastApplied := entry.index }, some entry) ∧
      node.log.entryAt entry.index = some entry ∧ entry.type = .command ∧
      node.lastApplied < entry.index ∧ entry.index ≤ node.lastApplied + rounds ∧
      NoCommand node.log node.lastApplied (entry.index - 1)) ∨
    result = ({ node with lastApplied := node.lastApplied + rounds }, none) ∧
      NoCommand node.log node.lastApplied (node.lastApplied + rounds)

theorem nextCommand_spec (rounds : Nat) (node : Node σ) :
    Stops rounds node (nextCommand rounds node) := by
  induction rounds generalizing node with
  | zero =>
    refine .inr ⟨rfl, ?_⟩
    intro _ _ _ _
    omega
  | succ rounds ih =>
    -- A round that finds no command hands on to the remaining ones.
    have passes : NoCommand node.log node.lastApplied (node.lastApplied + 1) →
        nextCommand (rounds + 1) node =
          nextCommand rounds { node with lastApplied := node.lastApplied + 1 } →
        Stops (rounds + 1) node (nextCommand (rounds + 1) node) := by
      intro quiet same
      rw [same]
      rcases ih { node with lastApplied := node.lastApplied + 1 } with
        ⟨entry, found, held, command, lower, upper, between⟩ | ⟨found, between⟩
      · dsimp only at lower upper between
        exact .inl ⟨entry, found, held, command, by omega, by omega, quiet.trans between⟩
      · have sum : node.lastApplied + 1 + rounds = node.lastApplied + (rounds + 1) := by omega
        rw [sum] at found between
        exact .inr ⟨found, quiet.trans between⟩
    cases stored : node.log.entryAt (node.lastApplied + 1) with
    | none =>
      refine passes ?_ (by rw [nextCommand, stored])
      intro other held above below
      have same : other.index = node.lastApplied + 1 := by omega
      rw [same, stored] at held
      cases held
    | some entry =>
      have index_eq := (node.log.entryAt_some stored).1
      by_cases command : entry.type = .command
      · refine .inl ⟨entry, ?_, ?_, command, by omega, by omega, ?_⟩
        · rw [nextCommand, stored]
          dsimp only
          rw [if_pos command, index_eq]
        · rw [index_eq]
          exact stored
        · intro other _ _ _
          omega
      · refine passes ?_ (by rw [nextCommand, stored]; exact if_neg command)
        intro other held above _
        have same : other.index = node.lastApplied + 1 := by omega
        rw [same, stored] at held
        rw [← Option.some.inj held]
        exact command

end Node

/-! ## The system -/

/-- A call of `Apply` under way: the thread that made it, the entry, whether the state machine is
done with it while the thread waits for the lock, and whether the reference to the entry that it
was given has become stale before that. -/
structure Flight where
  thread : Nat
  index : Nat
  data : Bytes
  finished : Bool
  stale : Bool
  deriving DecidableEq, Repr

/-- What the state machine is given, with what it reads through a stale reference. -/
def Flight.given (flight : Flight) (read : Bytes) : Bytes :=
  if flight.stale then read else flight.data

/-- A node with its calls of `Apply`, and whether the adapter has its server. The other fields are
not part of the program: the beginnings and ends of the calls, the entries that became committed,
the highest commit index so far, the index of the last installed image, the state that image left,
and the commands applied since. -/
structure Threads (σ : Type) where
  node : Node σ
  flights : List Flight
  served : Bool
  trace : List (SerialCalls.CallEvent (Nat × Bytes))
  committed : List RaftLogEntry
  highest : Nat
  floor : Nat
  base : σ
  effects : List Bytes

/-- What can happen next. -/
inductive ThreadEvent where
  /-- A thread runs a section, in which a `push_back` found the array of `log_` full or did not. -/
  | locked (thread : Nat) (taken : Section) (grown : Bool)
  /-- The state machine is done with the thread's command; where a stale reference leads it has
  read these bytes. -/
  | finish (thread : Nat) (read : Bytes)
  /-- The thread takes the lock again. -/
  | resume (thread : Nat)
  /-- `SetServer`. -/
  | setServer
  /-- The process is killed and started again. -/
  | crash

namespace Threads

open Node

variable {σ : Type} (state : Threads σ)

/-- The thread is inside `Apply`. -/
def busy (thread : Nat) : Bool :=
  state.flights.any fun flight => flight.thread == thread

/-- A thread runs `ApplyCommitted` up to its next call of `Apply`. -/
def enter (thread : Nat) : Threads σ :=
  match state.node.resumeApplying with
  | (node, none) => { state with node := node }
  | (node, some entry) =>
      { state with
        node := node
        flights := ⟨thread, entry.index, entry.data, false, false⟩ :: state.flights
        trace := state.trace ++ [.began (entry.index, entry.data)] }

/-- The entries that become committed when the commit index passes the highest one so far. -/
def newlyCommitted (highest : Nat) (node : Node σ) : List RaftLogEntry :=
  (List.range' (highest + 1) (node.commitIndex - highest)).filterMap node.log.entryAt

/-- The node after a section, with the entries that it committed. -/
def record (node : Node σ) : Threads σ :=
  { state with
    node := node
    committed := state.committed ++ newlyCommitted state.highest node
    highest := max state.highest node.commitIndex }

/-- An installed image takes the place of what was applied before. -/
def recordImage : Change σ → Threads σ
  | .install index _ _ machineState =>
      { state with floor := index, base := machineState, effects := [] }
  | _ => state

/-- A change takes the entry away that a flight refers to: all entries are cleared or move to a new
array, or the vector is shortened at the entry or in front of it. -/
def displaces (node : Node σ) (grown : Bool) (flight : Flight) : Change σ → Bool
  | .nothing | .commit _ | .refuse _ => false
  | .push _ _ _ => grown
  | .merge entries _ | .gap entries => grown || entries.any fun entry =>
      decide (entry.index ≤ flight.index) &&
        (node.log.entryAt entry.index).any fun old => old.term != entry.term
  | .install _ _ _ _ => true
  | .compact _ => (node.log.entryAt node.lastApplied).isSome

/-- References of running calls become stale. -/
def displace (grown : Bool) (change : Change σ) : Threads σ :=
  { state with
    flights := state.flights.map fun flight =>
      if !flight.finished && displaces state.node grown flight change then
        { flight with stale := true }
      else flight }

/-- A thread runs a section, up to the call of `ApplyCommitted`. -/
def locked (machine : StateMachine σ) (state : Threads σ) (taken : Section) (grown : Bool) :
    Threads σ :=
  let change := taken.change (some machine) state.node
  ((state.displace grown change).recordImage change).record (taken.run (some machine) state.node)

/-- The flight that the state machine is working on for a thread. -/
def runningOf (thread : Nat) : Option Flight :=
  state.flights.find? fun flight => flight.thread == thread && !flight.finished

/-- The state machine is done with a flight. -/
def finishFlight (machine : StateMachine σ) (state : Threads σ) (flight : Flight) (read : Bytes) :
    Threads σ :=
  let apply := if state.served then machine.apply else machine.applyUnserved
  { state with
    node := { state.node with machineState := apply (flight.given read) state.node.machineState }
    flights := state.flights.map fun other =>
      if other.thread = flight.thread then { other with finished := true } else other
    trace := state.trace ++ [.ended (flight.index, flight.given read)]
    effects := state.effects ++ [flight.given read] }

/-- A thread leaves `Apply`. -/
def land (thread : Nat) : Threads σ :=
  { state with flights := state.flights.filter fun flight => flight.thread != thread }

/-- One event; one that is not possible changes nothing. -/
def step (machine : StateMachine σ) (state : Threads σ) : ThreadEvent → Threads σ
  | .locked thread taken grown =>
      if state.busy thread then state
      else if taken.applies state.node then (state.locked machine taken grown).enter thread
      else state.locked machine taken grown
  | .finish thread read =>
      match state.runningOf thread with
      | none => state
      | some flight => state.finishFlight machine flight read
  | .resume thread =>
      if state.busy thread ∧ state.runningOf thread = none then (state.land thread).enter thread
      else state
  | .setServer => { state with served := true }
  | .crash => { state with node := state.node.restart, flights := [], served := false }

/-- A thread starts the call of `Apply` for an entry. -/
def launch (thread : Nat) (entry : RaftLogEntry) : Threads σ :=
  { state with
    node := { state.node with lastApplied := entry.index }
    flights := ⟨thread, entry.index, entry.data, false, false⟩ :: state.flights
    trace := state.trace ++ [.began (entry.index, entry.data)] }

/-- `ApplyCommitted` starts the next command, or passes all indices up to the commit index. -/
theorem enter_cases :
    (∃ entry, state.enter thread = state.launch thread entry ∧
      state.node.resumeApplying.2 = some entry ∧
      state.node.log.entryAt entry.index = some entry ∧ entry.type = .command ∧
      state.node.lastApplied < entry.index ∧ entry.index ≤ state.node.commitIndex ∧
      NoCommand state.node.log state.node.lastApplied (entry.index - 1)) ∨
    ∃ index, state.enter thread = { state with node := { state.node with lastApplied := index } } ∧
      state.node.resumeApplying.2 = none ∧
      index = max state.node.lastApplied state.node.commitIndex ∧
      NoCommand state.node.log state.node.lastApplied index := by
  unfold enter resumeApplying
  rcases nextCommand_spec (state.node.commitIndex - state.node.lastApplied) state.node with
    ⟨entry, found, held, command, behind, _, between⟩ | ⟨found, between⟩
  · rw [found]
    exact .inl ⟨entry, rfl, rfl, held, command, behind, by omega, between⟩
  · rw [found]
    exact .inr ⟨_, rfl, rfl, by omega, between⟩

/-- What an event can do. -/
inductive Steps (machine : StateMachine σ) (state : Threads σ) : ThreadEvent → Threads σ → Prop
  | same (event : ThreadEvent) : Steps machine state event state
  | locked {thread : Nat} {taken : Section} {grown : Bool} (free : state.busy thread = false)
      (silent : taken.applies state.node = false) :
      Steps machine state (.locked thread taken grown) (state.locked machine taken grown)
  | enter {thread : Nat} {taken : Section} {grown : Bool} (free : state.busy thread = false)
      (applies : taken.applies state.node = true) :
      Steps machine state (.locked thread taken grown)
        ((state.locked machine taken grown).enter thread)
  | finish {thread : Nat} {read : Bytes} {flight : Flight}
      (found : state.runningOf thread = some flight) :
      Steps machine state (.finish thread read) (state.finishFlight machine flight read)
  | resume {thread : Nat} (busy : state.busy thread = true)
      (finished : state.runningOf thread = none) :
      Steps machine state (.resume thread) ((state.land thread).enter thread)
  | setServer : Steps machine state .setServer { state with served := true }
  | restart :
      Steps machine state .crash
        { state with node := state.node.restart, flights := [], served := false }

variable {state} in
theorem steps_of_step (stepped : state.step machine event = later) :
    Steps machine state event later := by
  subst stepped
  cases event with
  | locked thread taken grown =>
    rw [step]
    cases free : state.busy thread with
    | true => exact .same _
    | false =>
      cases applies : taken.applies state.node with
      | true => exact .enter free applies
      | false => exact .locked free applies
  | finish thread read =>
    rw [step]
    cases found : state.runningOf thread with
    | none => exact .same _
    | some _ => exact .finish found
  | resume _ =>
    rw [step]
    split
    · rename_i ready
      exact .resume ready.1 ready.2
    · exact .same _
  | setServer => exact .setServer
  | crash => exact .restart

/-- A process that has just read its files. -/
def start (node : Node σ) : Threads σ where
  node := node.restart
  flights := []
  served := false
  trace := []
  committed := []
  highest := 0
  floor := 0
  base := node.machineState
  effects := []

/-- A voter of three that never stored anything. -/
def freshVoter : Node Bytes where
  opts := .ofThree 1
  machineState := []

/-- Entries that a leader of term one sends behind an index. -/
def sentBehind (prevLogIndex : Nat) (entries : List RaftLogEntry) (leaderCommit : Nat) : Section :=
  .appendEntries ⟨1, 2, prevLogIndex, min prevLogIndex 1, entries, leaderCommit⟩

end Threads

end LightKV.Raft
