import LightKV.AppliedOnce

/-!
# Synchronous proposals

`ProposeSync` reads the next index, registers a slot for the result under it, proposes, and waits
until the commit index has reached the index that it read. These are separate sections. Nothing
compares the index that `Propose` returns with the one that was read, and nothing looks at the
entry again when the wait ends. Two callers that read the same index therefore wait for the same
entry, and a caller whose entry a new leader has replaced waits for the replacement. That is
the defect; a run at the end of the module shows the first form.

`Proposals` adds the calls to the threads that apply entries: the slots, the map from indices to
slots, and the locals of `ApplyCommitted` that carry a result from `Apply` to a slot. Each step
below is one locked section of the source, or the part of `ApplyCommitted` between two of them.
The responses of the state machine are recorded as they are given.

`Faithful` says that a call's entry gets the index that the call waits for, and that it stays in the
log until it is committed. What is committed must stay as well, and so must the entries that
running calls of `Apply` refer to. Calls of `Apply` may overlap.
-/

namespace LightKV.Raft

open List Function Option RaftLog

/-- `PendingResult`. -/
structure ResultSlot where
  done : Bool := false
  value : Bytes := []
  deriving DecidableEq, Repr

/-- How far a call of `ProposeSync` has come. -/
inductive CallPhase where
  /-- The next index is read. -/
  | read
  /-- The slot is registered, if a result is wanted. -/
  | registered
  /-- `Propose` has returned minus one. -/
  | refused
  /-- The entry is appended; the first wait. -/
  | waiting
  /-- The index is committed; the wait for the slot. -/
  | collecting
  /-- The lock is released for the last time. -/
  | leaving
  | returned (committed : Bool) (result : Option Bytes)
  deriving DecidableEq, Repr

namespace CallPhase

/-- The entry is appended, and the call may still return true. -/
def live : CallPhase → Bool
  | .waiting | .collecting | .leaving => true
  | .returned committed _ => committed
  | .read | .registered | .refused => false

/-- Nothing is appended yet. -/
def fresh : CallPhase → Bool
  | .read | .registered => true
  | .refused | .waiting | .collecting | .leaving | .returned _ _ => false

end CallPhase

/-- A call of `ProposeSync` with its locals. The last field, the entry that `Propose` appended, is
not part of the program. -/
structure SyncCall where
  data : Bytes
  wantsResult : Bool
  proposeIdx : Nat
  phase : CallPhase
  slot : ResultSlot
  own : Option RaftLogEntry
  deriving DecidableEq, Repr

/-- The locals of `ApplyCommitted` on one thread: the slot, whether `Apply` is given a place for its
result, and that place. -/
structure Capture where
  slot : Option Nat := none
  wanted : Bool := false
  result : Bytes := []
  deriving DecidableEq, Repr

/-- A node with its threads and its callers. `responses` is not part of the program: index, data and
answer of every finished `Apply`. -/
structure Proposals (σ : Type) where
  threads : Threads σ
  calls : List SyncCall
  pendingResults : Nat → Option Nat
  captures : Nat → Capture
  responses : List (Nat × Bytes × Bytes)

/-- What can happen next. A call is named by its position. -/
inductive ProposalEvent where
  | thread (event : ThreadEvent)
  | start (data : Bytes) (wantsResult : Bool)
  | register (id : Nat)
  | propose (id : Nat) (grown : Bool)
  | giveUp (id : Nat)
  | wake (id : Nat)
  | timeout (id : Nat)
  | slotReady (id : Nat)
  | collect (id : Nat)

namespace Proposals

open Node SerialCalls Threads

section

variable {σ : Type} (machine : StateMachine σ) (response : Bool → Bytes → σ → Bytes)
  (state : Proposals σ)

/-- A process that has just read its files. -/
def start (node : Node σ) : Proposals σ where
  threads := .start node
  calls := []
  pendingResults _ := none
  captures _ := {}
  responses := []

/-! ## Threads that apply entries -/

/-- What `ApplyCommitted` takes from the map for an index. -/
def capture (index : Nat) : Capture :=
  match state.pendingResults index with
  | none => {}
  | some id =>
      { slot := some id
        wanted := !((state.calls[id]?.map (·.slot.done)).getD false) }

/-- A thread runs `ApplyCommitted` up to its next call of `Apply`. -/
def enter (thread : Nat) : Proposals σ :=
  match state.threads.node.resumeApplying.2 with
  | none => { state with threads := state.threads.enter thread }
  | some entry =>
      { state with
        threads := state.threads.enter thread
        captures := update state.captures thread (state.capture entry.index) }

/-- Behind `Apply`, a slot that is not done gets the result. -/
def fill (thread : Nat) : Proposals σ :=
  match (state.captures thread).slot with
  | none => state
  | some id =>
      match state.calls[id]? with
      | none => state
      | some call =>
          if call.slot.done then state
          else
            { state with
              calls := state.calls.set id
                { call with slot := { done := true, value := (state.captures thread).result } } }

/-- The state machine is done with a flight. Its answer depends on whether it has a server. -/
def finishFlight (flight : Flight) (read : Bytes) : Proposals σ :=
  let value := response state.threads.served (flight.given read) state.threads.node.machineState
  let captured := state.captures flight.thread
  { state with
    threads := state.threads.finishFlight machine flight read
    captures := update state.captures flight.thread
      { captured with result := if captured.wanted then value else [] }
    responses := state.responses ++ [(flight.index, flight.given read, value)] }

/-- An event of the threads. A process that is killed takes its calls with it. -/
def threadStep : ThreadEvent → Proposals σ
  | .locked thread taken grown =>
      if state.threads.busy thread then state
      else
        let locked := { state with threads := state.threads.locked machine taken grown }
        if taken.applies state.threads.node then locked.enter thread else locked
  | .finish thread read =>
      match state.threads.runningOf thread with
      | none => state
      | some flight => state.finishFlight machine response flight read
  | .resume thread =>
      if state.threads.busy thread ∧ state.threads.runningOf thread = none then
        let filled := state.fill thread
        Proposals.enter { filled with threads := filled.threads.land thread } thread
      else state
  | .setServer => { state with threads := state.threads.step machine .setServer }
  | .crash => start state.threads.node

/-! ## Callers -/

/-- A step of a call that has come so far; otherwise nothing. -/
def onCall (id : Nat) (phase : CallPhase) (next : SyncCall → Proposals σ) : Proposals σ :=
  match state.calls[id]? with
  | none => state
  | some call => if call.phase = phase then next call else state

/-- The call goes on. -/
def advance (id : Nat) (call : SyncCall) (phase : CallPhase) : Proposals σ :=
  { state with calls := state.calls.set id { call with phase := phase } }

/-- `pending_results_.erase(propose_idx)`, if a result was wanted. -/
def erase (call : SyncCall) : Proposals σ :=
  if call.wantsResult then
    { state with pendingResults := update state.pendingResults call.proposeIdx none }
  else state

/-- The section of `Propose`. -/
def proposeCall (id : Nat) (grown : Bool) (call : SyncCall) : Proposals σ :=
  let threads := state.threads.locked machine (.leader (.propose call.data)) grown
  match (state.threads.node.propose call.data).2 with
  | none => { state with threads := threads }.advance id call .refused
  | some index =>
      { state with threads := threads }.advance id
        { call with own := threads.node.log.entryAt index } .waiting

/-- One event. -/
def step : ProposalEvent → Proposals σ
  | .thread event => state.threadStep machine response event
  | .start data wantsResult =>
      { state with
        calls := state.calls ++
          [{ data := data
             wantsResult := wantsResult
             proposeIdx := state.threads.node.log.lastLogIndex + 1
             phase := .read
             slot := {}
             own := none }] }
  | .register id => state.onCall id .read fun call =>
      if call.wantsResult then
        { state with
          pendingResults :=
            update state.pendingResults call.proposeIdx (some id) }.advance
              id call .registered
      else state.advance id call .registered
  | .propose id grown => state.onCall id .registered (state.proposeCall machine id grown)
  | .giveUp id => state.onCall id .refused fun call =>
      (state.erase call).advance id call (.returned false none)
  | .wake id => state.onCall id .waiting fun call =>
      if state.threads.node.commitIndex < call.proposeIdx then state
      else if call.wantsResult ∧ (state.pendingResults call.proposeIdx).isSome then
        state.advance id call .collecting
      else (state.erase call).advance id call .leaving
  | .timeout id => state.onCall id .waiting fun call =>
      if state.threads.node.commitIndex < call.proposeIdx then
        (state.erase call).advance id call (.returned false none)
      else state
  | .slotReady id => state.onCall id .collecting fun call =>
      (state.erase call).advance id call .leaving
  | .collect id => state.onCall id .leaving fun call =>
      state.advance id call
        (.returned true (if call.wantsResult ∧ call.slot.done then some call.slot.value else none))

/-! ## The property and the condition -/

/-- A call that returns true has had its own entry committed, and its result is the answer that the
state machine gave for that entry. -/
def Honest : Prop :=
  ∀ call ∈ state.calls, ∀ result, call.phase = .returned true result →
    ∃ own ∈ state.threads.committed, call.own = some own ∧ own.type = .command ∧
      own.data = call.data ∧
      ∀ value, result = some value → (own.index, own.data, value) ∈ state.responses

/-- The entries that calls wait for and that are not committed. -/
def awaited : List RaftLogEntry :=
  (state.calls.filterMap fun call => if call.phase = .waiting then call.own else none).filter
    fun own => decide (state.threads.highest < own.index)

/-- A change leaves these entries in the log. -/
def Retains : Change σ → Prop
  | .merge entries _ | .gap entries =>
      ∀ own ∈ state.awaited, state.threads.node.log.Keeps entries own.index
  | .install _ _ _ _ | .compact _ => state.awaited = []
  | .nothing | .push _ _ _ | .commit _ | .refuse _ => True

/-- Sections leave entries alone that are committed, awaited or being applied, and a leader's
`Propose` appends at the index that the call has read. -/
def Faithful : ProposalEvent → Prop
  | .thread (.locked thread taken grown) => state.threads.busy thread = false →
      state.threads.Undisplaced grown (taken.change (some machine) state.threads.node) ∧
      state.threads.Respects (taken.change (some machine) state.threads.node) ∧
      state.Retains (taken.change (some machine) state.threads.node)
  | .propose id grown => ∀ call ∈ state.calls[id]?.toList, call.phase = .registered →
      state.threads.node.role = .leader →
      (grown = true → state.threads.unfinished = []) ∧
      state.threads.node.log.lastLogIndex + 1 = call.proposeIdx
  | .thread (.finish _ _) | .thread (.resume _) | .thread .setServer | .thread .crash
  | .start _ _ | .register _ | .giveUp _ | .wake _ | .timeout _ | .slotReady _ | .collect _ => True

end

variable {σ : Type} {machine : StateMachine σ} {state : Proposals σ} {threads : Threads σ}
variable {call : SyncCall} {responses : List (Nat × Bytes × Bytes)} {id : Nat} {phase : CallPhase}
  {calls : List SyncCall} {own : RaftLogEntry} {response : Bool → Bytes → σ → Bytes}
  {grown : Bool} {read : Bytes}

/-! ## The invariant -/

/-- The entry of a call: it has the index that the call waits for, and is committed or still in the
log behind everything committed; a slot that is done holds the answer to it. -/
structure Owned (threads : Threads σ) (responses : List (Nat × Bytes × Bytes)) (call : SyncCall)
    (own : RaftLogEntry) : Prop where
  own_eq : call.own = some own
  index_eq : own.index = call.proposeIdx
  command : own.type = .command
  data_eq : own.data = call.data
  placed : own ∈ threads.committed ∨ call.phase = .waiting ∧
    threads.node.log.entryAt own.index = some own ∧ threads.highest < own.index
  answered : call.slot.done = true → (own.index, own.data, call.slot.value) ∈ responses

/-- What holds of one call. A slot that is done before the call has proposed was given the answer to
an entry under the same index. -/
structure CallOk (threads : Threads σ) (responses : List (Nat × Bytes × Bytes)) (call : SyncCall) :
    Prop where
  owned : call.phase.live = true → ∃ own, Owned threads responses call own
  early : call.phase.fresh = true → call.slot.done = true → call.proposeIdx ≤ threads.highest
  result : ∀ value, call.phase = .returned true (some value) →
    call.slot.done = true ∧ call.slot.value = value

/-- What holds of the locals of a thread inside `Apply`: the slot belongs to a call that waits for
the same index, and behind the `Apply` the result is the recorded answer. -/
def Captured (state : Proposals σ) (flight : Flight) : Prop :=
  ∀ id, (state.captures flight.thread).slot = some id →
    ∃ call, state.calls[id]? = some call ∧ call.proposeIdx = flight.index ∧
      ((state.captures flight.thread).wanted = false → call.slot.done = true) ∧
      (flight.finished = true → (state.captures flight.thread).wanted = true →
        (flight.index, flight.data, (state.captures flight.thread).result) ∈ state.responses)

/-- What holds between the events. -/
structure Sound (state : Proposals σ) : Prop where
  mid : Mid state.threads
  distinct : (state.threads.flights.map (·.thread)).Nodup
  flown : ∀ flight ∈ state.threads.flights, flight.call ∈ begun state.threads.trace
  upToDate : ∀ flight ∈ state.threads.unfinished, flight.stale = false
  calls_ok : ∀ call ∈ state.calls, CallOk state.threads state.responses call
  named : ∀ index id, state.pendingResults index = some id →
    ∃ call, state.calls[id]? = some call ∧ call.proposeIdx = index
  captured : ∀ flight ∈ state.threads.flights, Captured state flight

theorem Sound.honest (sound : Sound state) : Honest state := by
  intro call member _ returned
  have ok := sound.calls_ok call member
  have live : call.phase.live = true := by rw [returned]; rfl
  obtain ⟨own, owned⟩ := ok.owned live
  rcases owned.placed with committed | ⟨waits, _⟩
  · refine ⟨own, committed, owned.own_eq, owned.command, owned.data_eq, ?_⟩
    rintro value rfl
    obtain ⟨done, value_eq⟩ := ok.result value returned
    rw [← value_eq]
    exact owned.answered done
  · rw [returned] at waits
    cases waits

theorem sound_start {node : Node σ} : Sound (start node) where
  mid := inv_start.toMid
  distinct := .nil
  flown := nofun
  upToDate := nofun
  calls_ok := nofun
  named := nofun
  captured := nofun

variable {responses' : List (Nat × Bytes × Bytes)}

/-- More committed entries and more answers leave a call as it is, as long as its entry is where it
should be. -/
theorem CallOk.mono {threads threads' : Threads σ} (ok : CallOk threads responses call)
    (committed : ∀ entry ∈ threads.committed, entry ∈ threads'.committed)
    (highest : threads.highest ≤ threads'.highest)
    (answers : ∀ answer ∈ responses, answer ∈ responses')
    (placed : ∀ own, call.phase = .waiting → call.own = some own → threads.node.log.entryAt
      own.index = some own → threads.highest < own.index → own ∈ threads'.committed ∨
      threads'.node.log.entryAt own.index = some own ∧ threads'.highest < own.index) :
    CallOk threads' responses' call where
  owned := by
    intro live
    obtain ⟨own, owned⟩ := ok.owned live
    refine ⟨own, { owned with placed := ?_, answered := ?_ }⟩
    · rcases owned.placed with before | ⟨waits, held, beyond⟩
      · exact .inl (committed own before)
      · rcases placed own waits owned.own_eq held beyond with now | still
        · exact .inl now
        · exact .inr ⟨waits, still⟩
    · exact fun done => answers _ (owned.answered done)
  early fresh done := le_trans (ok.early fresh done) highest
  result := ok.result

/-- So does whatever leaves the log and the committed entries alone. -/
theorem CallOk.frame {threads threads' : Threads σ} (ok : CallOk threads responses call)
    (committed_eq : threads'.committed = threads.committed)
    (highest_eq : threads'.highest = threads.highest)
    (log_eq : threads'.node.log = threads.node.log)
    (answers : ∀ answer ∈ responses, answer ∈ responses') : CallOk threads' responses' call := by
  refine ok.mono ?_ (le_of_eq highest_eq.symm) answers ?_
  · exact fun _ member => committed_eq.symm ▸ member
  · intro _ _ _ held beyond
    rw [highest_eq, log_eq]
    exact .inr ⟨held, beyond⟩

/-- The calls after a step: each keeps its index, and a slot that is done stays done. -/
def Continues (calls calls' : List SyncCall) : Prop :=
  ∀ (id : Nat) (call : SyncCall), calls[id]? = some call →
    ∃ call' : SyncCall, calls'[id]? = some call' ∧ call'.proposeIdx = call.proposeIdx ∧
      (call.slot.done = true → call'.slot.done = true)

theorem continues_set (found : calls[id]? = some call)
    (index_eq : call'.proposeIdx = call.proposeIdx)
    (done : call.slot.done = true → call'.slot.done = true) :
    Continues calls (calls.set id call') := by
  intro other kept stored
  by_cases same : id = other
  · subst same
    rw [found] at stored
    rw [← some.inj stored]
    refine ⟨call', ?_, index_eq, done⟩
    rw [getElem?_set_self (List.getElem?_eq_some_iff.mp found).1]
  · refine ⟨kept, ?_, rfl, fun done => done⟩
    rw [getElem?_set_ne same]
    exact stored

theorem continues_append : Continues calls (calls ++ more) := by
  intro _ call stored
  refine ⟨call, ?_, rfl, fun done => done⟩
  rw [getElem?_append_left (List.getElem?_eq_some_iff.mp stored).1]
  exact stored

theorem Captured.continues (captured : Captured state flight)
    (continues : Continues state.calls calls) : Captured { state with calls := calls } flight := by
  intro id slot
  obtain ⟨call, found, index_eq, unwanted, answered⟩ := captured id slot
  obtain ⟨call', found', index_eq', done⟩ := continues id call found
  exact ⟨call', found', index_eq'.trans index_eq, fun no => done (unwanted no), answered⟩

section

variable (sound : Sound state)
include sound

/-- Calls go on: what is left to show is that each of them is in order. -/
theorem Sound.withCalls (continues : Continues state.calls calls)
    (ok : ∀ call ∈ calls, CallOk state.threads state.responses call) :
    Sound { state with calls := calls } where
  mid := sound.mid
  distinct := sound.distinct
  flown := sound.flown
  upToDate := sound.upToDate
  calls_ok := ok
  named := by
    intro index id registered
    obtain ⟨call, found, index_eq⟩ := sound.named index id registered
    obtain ⟨call', found', index_eq', _⟩ := continues id call found
    exact ⟨call', found', index_eq'.trans index_eq⟩
  captured flight member := (sound.captured flight member).continues continues

/-- One call goes on. -/
theorem Sound.set (found : state.calls[id]? = some call)
    (index_eq : call'.proposeIdx = call.proposeIdx)
    (done : call.slot.done = true → call'.slot.done = true)
    (ok : CallOk state.threads state.responses call') :
    Sound { state with calls := state.calls.set id call' } := by
  refine sound.withCalls (continues_set found index_eq done) ?_
  intro other member
  rcases mem_or_eq_of_mem_set member with old | rfl
  · exact sound.calls_ok other old
  · exact ok

/-- The map may lose indices, and gain one that names a call with that index. -/
theorem Sound.withPending (named : ∀ index id, pending index = some id →
      ∃ call, state.calls[id]? = some call ∧ call.proposeIdx = index) :
    Sound { state with pendingResults := pending } :=
  { sound with named := named, captured := sound.captured }

theorem Sound.erase : Sound (state.erase call) := by
  unfold Proposals.erase
  split
  · refine sound.withPending ?_
    intro index id registered
    by_cases same : index = call.proposeIdx
    · rw [same, update_self] at registered
      cases registered
    · rw [update_of_ne same] at registered
      exact sound.named index id registered
  · exact sound

end

theorem erase_fields (state : Proposals σ) (call : SyncCall) :
    (state.erase call).calls = state.calls ∧ (state.erase call).threads = state.threads ∧
      (state.erase call).responses = state.responses := by
  unfold Proposals.erase
  split
  · exact ⟨rfl, rfl, rfl⟩
  · exact ⟨rfl, rfl, rfl⟩

/-! ## Steps of the threads -/

/-- An awaited entry survives a section that retains it. -/
theorem held_locked {taken : Section}
    (retains : state.Retains (taken.change (some machine) state.threads.node))
    (member : own ∈ state.awaited) (held : state.threads.node.log.entryAt own.index = some own) :
    (taken.run (some machine) state.threads.node).log.entryAt own.index = some own := by
  have log_eq := congrArg Core.log (Section.core_run (some machine) state.threads.node taken)
  generalize taken.change (some machine) state.threads.node = change at *
  cases change with
  | nothing | commit _ | refuse _ => exact (congrArg (·.entryAt own.index) log_eq).trans held
  | push _ _ _ =>
    exact (congrArg (·.entryAt own.index) log_eq).trans (entryAt_push_of_some _ held)
  | merge _ _ | gap _ =>
    exact (congrArg (·.entryAt own.index) log_eq).trans ((retains own member).merged.2.trans held)
  | install _ _ _ _ | compact _ =>
    have none_awaited : state.awaited = [] := retains
    rw [none_awaited] at member
    cases member

theorem mem_awaited (member : call ∈ state.calls) (waits : call.phase = .waiting)
    (own_eq : call.own = some own) (beyond : state.threads.highest < own.index) :
    own ∈ state.awaited := by
  refine mem_filter.mpr ⟨mem_filterMap.mpr ⟨call, member, ?_⟩, decide_eq_true beyond⟩
  rw [if_pos waits, own_eq]

theorem locked_fields :
    (threads.locked machine taken grown).node = taken.run (some machine) threads.node ∧
      (threads.locked machine taken grown).committed = threads.committed ++
        newlyCommitted threads.highest (taken.run (some machine) threads.node) ∧
      (threads.locked machine taken grown).highest =
        max threads.highest (taken.run (some machine) threads.node).commitIndex := by
  unfold Threads.locked
  cases taken.change (some machine) threads.node with
  | _ => exact ⟨rfl, rfl, rfl⟩

theorem Sound.locked (sound : Sound state) {taken : Section}
    (kept : state.threads.Undisplaced grown (taken.change (some machine) state.threads.node))
    (respects : state.threads.Respects (taken.change (some machine) state.threads.node))
    (retains : state.Retains (taken.change (some machine) state.threads.node)) :
    Sound { state with threads := state.threads.locked machine taken grown } := by
  obtain ⟨flights_eq, trace_eq⟩ := flights_locked kept
  obtain ⟨_, committed_eq, highest_eq⟩ := locked_fields
  constructor
  · exact sound.mid.locked kept respects
  · rw [flights_eq]
    exact sound.distinct
  · rw [flights_eq, trace_eq]
    exact sound.flown
  · rw [unfinished, flights_eq]
    exact sound.upToDate
  · intro call member
    refine (sound.calls_ok call member).mono ?_ ?_ (fun _ answer => answer) ?_
    · rw [committed_eq]
      exact fun _ old => mem_append_left _ old
    · rw [highest_eq]
      exact le_max_left _ _
    · intro own waits own_eq held beyond
      have still := held_locked retains (mem_awaited member waits own_eq beyond) held
      rw [committed_eq, highest_eq]
      rcases lt_or_ge (taken.run (some machine) state.threads.node).commitIndex own.index with
        later | reached
      · exact .inr ⟨still, Nat.max_lt.mpr ⟨beyond, later⟩⟩
      · exact .inl (mem_append_right _ (mem_newlyCommitted.mpr ⟨still, beyond, reached⟩))
  · exact sound.named
  · rw [flights_eq]
    exact sound.captured

/-- A thread that is not inside `Apply` runs `ApplyCommitted`. -/
theorem Sound.enter (sound : Sound state) {thread : Nat}
    (free : ∀ flight ∈ state.threads.flights, flight.thread ≠ thread) :
    Sound (state.enter thread) := by
  have mid := sound.mid.enter thread
  unfold Proposals.enter
  rcases state.threads.enter_cases with ⟨entry, enter_eq, begins, _⟩ | ⟨_, enter_eq, begins, _⟩
  · rw [enter_eq] at mid
    rw [begins, enter_eq]
    have begun_eq : begun (state.threads.trace ++ [.began (entry.index, entry.data)]) =
        begun state.threads.trace ++ [(entry.index, entry.data)] := begun_append
    constructor
    · exact mid
    · refine nodup_cons.mpr ⟨?_, sound.distinct⟩
      intro member
      obtain ⟨flight, listed, same⟩ := mem_map.mp member
      exact free flight listed same
    · intro flight member
      show flight.call ∈ begun (state.threads.trace ++ [.began (entry.index, entry.data)])
      rw [begun_eq]
      rcases mem_cons.mp member with rfl | old
      · exact mem_append_right _ mem_cons_self
      · exact mem_append_left _ (sound.flown flight old)
    · intro flight member
      obtain ⟨listed, open_⟩ := mem_filter.mp member
      rcases mem_cons.mp listed with rfl | old
      · rfl
      · exact sound.upToDate flight (mem_filter.mpr ⟨old, open_⟩)
    · intro call member
      exact (sound.calls_ok call member).frame rfl rfl rfl fun _ answer => answer
    · exact sound.named
    · intro flight member
      rcases mem_cons.mp member with rfl | old
      · -- The new flight: its locals come from the map.
        intro id slot
        dsimp only at slot ⊢
        rw [update_self] at slot ⊢
        unfold Proposals.capture at slot ⊢
        cases registered : state.pendingResults entry.index with
        | none =>
          rw [registered] at slot
          cases slot
        | some owner =>
          rw [registered] at slot
          obtain rfl : owner = id := some.inj slot
          obtain ⟨call, stored, index_eq⟩ := sound.named entry.index owner registered
          refine ⟨call, stored, index_eq, ?_, nofun⟩
          simp [stored]
      · have other := free flight old
        intro id slot
        dsimp only at slot ⊢
        rw [update_of_ne other] at slot ⊢
        exact sound.captured flight old id slot
  · rw [enter_eq] at mid
    rw [begins, enter_eq]
    exact { sound with
      mid := mid
      calls_ok := fun call member =>
        (sound.calls_ok call member).frame rfl rfl rfl fun _ answer => answer }

/-- The state machine answers. -/
theorem Sound.finishFlight (sound : Sound state) (running : flight ∈ state.threads.unfinished) :
    Sound (state.finishFlight machine response flight read) := by
  have member := mem_of_mem_filter running
  have given_eq : flight.given read = flight.data := by
    rw [Flight.given, sound.upToDate flight running]
    rfl
  constructor
  · exact sound.mid.finish
  · have threads_eq : (state.threads.finishFlight machine flight read).flights.map (·.thread) =
        state.threads.flights.map (·.thread) := by
      rw [Threads.finishFlight, List.map_map]
      refine map_congr_left ?_
      intro _ _
      simp only [comp_apply]
      split
      · rfl
      · rfl
    exact threads_eq.symm ▸ sound.distinct
  · intro other listed
    show other.call ∈ begun (state.threads.trace ++ [.ended _])
    rw [begun_ended]
    obtain ⟨before, old, rfl⟩ := mem_map.mp listed
    have flown := sound.flown before old
    split
    · exact flown
    · exact flown
  · intro other listed
    obtain ⟨listed, open_⟩ := mem_filter.mp listed
    obtain ⟨before, old, rfl⟩ := mem_map.mp listed
    by_cases same : before.thread = flight.thread
    · rw [if_pos same] at open_
      cases open_
    · rw [if_neg same] at open_ ⊢
      exact sound.upToDate before (mem_filter.mpr ⟨old, open_⟩)
  · intro call listed
    exact (sound.calls_ok call listed).frame rfl rfl rfl fun _ answer => mem_append_left _ answer
  · exact sound.named
  · intro _ listed
    obtain ⟨before, old, rfl⟩ := mem_map.mp listed
    by_cases same : before.thread = flight.thread
    · -- The flight itself: its result is the last answer.
      obtain rfl := inj_on_of_nodup_map sound.distinct old member same
      rw [if_pos rfl]
      intro id slot
      dsimp only [Proposals.finishFlight] at slot ⊢
      rw [update_self] at slot ⊢
      obtain ⟨call, found, index_eq, unwanted, _⟩ := sound.captured before old id slot
      refine ⟨call, found, index_eq, unwanted, ?_⟩
      intro _ wanted
      rw [if_pos wanted, given_eq]
      exact mem_append_right _ mem_cons_self
    · rw [if_neg same]
      intro id slot
      dsimp only [Proposals.finishFlight] at slot ⊢
      rw [update_of_ne same] at slot ⊢
      obtain ⟨call, found, index_eq, unwanted, answered⟩ := sound.captured before old id slot
      exact ⟨call, found, index_eq, unwanted, fun finished wanted =>
        mem_append_left _ (answered finished wanted)⟩

/-- Two committed entries under one index are the same. -/
theorem committed_inj (mid : Mid threads) (member : first ∈ threads.committed)
    (also : second ∈ threads.committed) (same : first.index = second.index) : first = second := by
  have distinct : (threads.committed.map (·.index)).Nodup :=
    pairwise_map.mpr (mid.sorted.imp ne_of_lt)
  exact inj_on_of_nodup_map distinct member also same

section

variable (sound : Sound state)
include sound

/-- A finished flight fills the slot of the call that waits for its index. The entry that was
applied under that index is the call's own, since only one entry is ever committed there. -/
theorem Sound.fill (member : flight ∈ state.threads.flights)
    (finished : flight.finished = true) : Sound (state.fill flight.thread) := by
  unfold Proposals.fill
  cases slot : (state.captures flight.thread).slot with
  | none => exact sound
  | some id =>
    obtain ⟨call, found, index_eq, unwanted, answered⟩ := sound.captured flight member id slot
    dsimp only
    rw [found]
    dsimp only
    split
    · exact sound
    rename_i open_
    have wanted : (state.captures flight.thread).wanted = true := by
      cases choice : (state.captures flight.thread).wanted with
      | true => rfl
      | false => exact absurd (unwanted choice) open_
    have answer := answered finished wanted
    have ok := sound.calls_ok call (mem_of_getElem? found)
    have began := sound.flown flight member
    have low : flight.index ≤ state.threads.highest := sound.mid.begun_le began
    refine sound.set found rfl (fun _ => rfl) ⟨?_, ?_, ?_⟩
    · intro live
      obtain ⟨own, owned⟩ := ok.owned live
      refine ⟨own, owned.own_eq, owned.index_eq, owned.command, owned.data_eq, owned.placed, ?_⟩
      intro _
      obtain ⟨entry, committed, _, call_eq⟩ := sound.mid.known flight.call began
      have flight_index : flight.index = entry.index := congrArg Prod.fst call_eq
      have flight_data : flight.data = entry.data := congrArg Prod.snd call_eq
      have own_committed : own ∈ state.threads.committed := by
        rcases owned.placed with committed | ⟨_, _, beyond⟩
        · exact committed
        · rw [owned.index_eq] at beyond
          omega
      have same : own = entry := committed_inj sound.mid own_committed committed
        (owned.index_eq.trans (index_eq.trans flight_index))
      rw [same, ← flight_index, ← flight_data]
      exact answer
    · intro _ _
      exact index_eq ▸ low
    · intro value returned
      obtain ⟨done, _⟩ := ok.result value returned
      exact absurd done open_

theorem Sound.land : Sound { state with threads := state.threads.land thread } where
  mid := sound.mid.land
  distinct := sound.distinct.sublist (filter_sublist.map _)
  flown flight member := sound.flown flight (mem_of_mem_filter member)
  upToDate flight member := by
    obtain ⟨listed, open_⟩ := mem_filter.mp member
    exact sound.upToDate flight (mem_filter.mpr ⟨mem_of_mem_filter listed, open_⟩)
  calls_ok call member := (sound.calls_ok call member).frame rfl rfl rfl fun _ answer => answer
  named := sound.named
  captured flight member := sound.captured flight (mem_of_mem_filter member)

theorem Sound.threadStep (faithful : state.Faithful machine (.thread event)) :
    Sound (state.threadStep machine response event) := by
  cases event with
  | locked thread taken grown =>
    rw [Proposals.threadStep]
    cases free : state.threads.busy thread with
    | true => exact sound
    | false =>
      obtain ⟨kept, respects, retains⟩ := faithful free
      have locked := sound.locked kept respects retains
      have alone : ∀ flight ∈ (state.threads.locked machine taken grown).flights,
          flight.thread ≠ thread := by
        rw [(flights_locked kept).1]
        intro flight member same
        have found := any_eq_false.mp free flight member
        exact found (beq_iff_eq.mpr same)
      cases taken.applies state.threads.node with
      | true => exact locked.enter alone
      | false => exact locked
  | finish thread _ =>
    rw [Proposals.threadStep]
    cases found : state.threads.runningOf thread with
    | none => exact sound
    | some _ => exact sound.finishFlight (mem_unfinished_of_runningOf found)
  | resume thread =>
    rw [Proposals.threadStep]
    split
    · rename_i ready
      obtain ⟨flight, member, same⟩ := any_eq_true.mp ready.1
      obtain rfl : flight.thread = thread := eq_of_beq same
      have finished : flight.finished = true := by
        have closed := find?_eq_none.mp ready.2 flight member
        simpa using closed
      refine ((sound.fill member finished).land).enter ?_
      intro _ listed
      have kept := of_mem_filter listed
      simpa using kept
    · exact sound
  | setServer =>
    exact { sound with
      mid := { sound.mid with }
      calls_ok := fun call member =>
        (sound.calls_ok call member).frame rfl rfl rfl fun _ answer => answer }
  | crash => exact sound_start

/-! ## Steps of the callers -/

theorem Sound.onCall {next : SyncCall → Proposals σ}
    (kept : ∀ call, state.calls[id]? = some call → call.phase = phase →
      CallOk state.threads state.responses call → Sound (next call)) :
    Sound (state.onCall id phase next) := by
  unfold Proposals.onCall
  cases found : state.calls[id]? with
  | none => exact sound
  | some call =>
    dsimp only
    split
    · rename_i here
      exact kept call found here (sound.calls_ok call (mem_of_getElem? found))
    · exact sound

end

section

variable (sound : Sound state) (found : state.calls[id]? = some call)
  (ok : CallOk state.threads state.responses { call with phase := phase })
include sound found ok

theorem Sound.advance :
    Sound (state.advance id call phase) := sound.set found rfl (fun done => done) ok

theorem Sound.eraseAdvance : Sound ((state.erase call).advance id call phase) := by
  obtain ⟨calls_eq, threads_eq, responses_eq⟩ := erase_fields state call
  refine sound.erase.advance (calls_eq.symm ▸ found) ?_
  rw [threads_eq, responses_eq]
  exact ok

end

/-- A call that returns false owes nothing. -/
theorem callOk_returned_false :
    CallOk threads responses { call with phase := .returned false none } where
  owned := nofun
  early := nofun
  result := nofun

/-- A call whose entry is committed goes on. -/
theorem Owned.goesOn (owned : Owned threads responses call own)
    (committed : own ∈ threads.committed) :
    Owned threads responses { call with phase := phase } own :=
  { owned with placed := .inl committed, answered := owned.answered }

theorem CallOk.goesOn (ok : CallOk threads responses call) (live : call.phase.live = true)
    (settled : ∀ own, Owned threads responses call own → own ∈ threads.committed)
    (appended : phase.fresh = false)
    (result : ∀ value, phase = .returned true (some value) → call.slot.done = true ∧
      call.slot.value = value) : CallOk threads responses { call with phase := phase } where
  owned := by
    intro _
    obtain ⟨own, owned⟩ := ok.owned live
    exact ⟨own, owned.goesOn (settled own owned)⟩
  early fresh := by
    rw [appended] at fresh
    cases fresh
  result := result

theorem settled_of_not_waiting (moved : call.phase ≠ .waiting) :
    ∀ own, Owned threads responses call own → own ∈ threads.committed := by
  intro _ owned
  rcases owned.placed with committed | ⟨waits, _⟩
  · exact committed
  · exact absurd waits moved

theorem settled_of_reached (mid : Mid threads)
    (reached : ¬ threads.node.commitIndex < call.proposeIdx) :
    ∀ own, Owned threads responses call own → own ∈ threads.committed := by
  intro _ owned
  rcases owned.placed with committed | ⟨_, _, _⟩
  · exact committed
  · have := mid.commit_le
    have := owned.index_eq
    omega

/-- A leader's `Propose` appends the call's entry at the index that the call has read. Nothing was
applied under that index before, so the slot is not done. -/
theorem Sound.proposeCall (sound : Sound state) (found : state.calls[id]? = some call)
    (registered : call.phase = .registered)
    (inPlace : state.threads.node.role = .leader →
      (grown = true → state.threads.unfinished = []) ∧
        state.threads.node.log.lastLogIndex + 1 = call.proposeIdx) :
    Sound (state.proposeCall machine id grown call) := by
  have change_eq : (Section.leader (.propose call.data)).change (some machine) state.threads.node =
      if state.threads.node.role = .leader then
        .push state.threads.node.currentTerm .command call.data
      else .nothing := rfl
  have locked : Sound { state with
      threads := state.threads.locked machine (.leader (.propose call.data)) grown } := by
    refine sound.locked ?_ ?_ ?_
    · intro flight running
      rw [change_eq]
      split
      · rename_i leads
        refine eq_false_of_ne_true fun full => ?_
        rw [(inPlace leads).1 full] at running
        cases running
      · rfl
    all_goals
      rw [change_eq]
      split <;> trivial
  obtain ⟨node_eq, _, highest_eq⟩ := locked_fields
  unfold Proposals.proposeCall
  by_cases leads : state.threads.node.role = .leader
  · have index_eq := (inPlace leads).2
    have low := sound.mid.highest_le
    have commit_le := sound.mid.commit_le
    have run_eq : (Section.leader (.propose call.data)).run (some machine) state.threads.node =
        savePersistentState { state.threads.node with
          log := state.threads.node.log.push state.threads.node.currentTerm .command
            call.data } := by
      show (state.threads.node.propose call.data).1 = _
      rw [propose, if_neg (not_not.mpr leads)]
    have proposed : (state.threads.node.propose call.data).2 =
        some (state.threads.node.log.lastLogIndex + 1) := by
      rw [propose, if_neg (not_not.mpr leads), ← lastLogIndex_push]
    have held : (state.threads.locked machine (.leader (.propose call.data))
        grown).node.log.entryAt (state.threads.node.log.lastLogIndex + 1) =
        some { index := state.threads.node.log.lastLogIndex + 1,
               term := state.threads.node.currentTerm, type := .command, data := call.data } := by
      rw [node_eq, run_eq]
      show (push _ _ _ _).entryAt _ = _
      rw [push, entryAt_splice, if_neg (lt_irrefl _), if_pos rfl]
    have bound : (state.threads.locked machine (.leader (.propose call.data)) grown).highest =
        state.threads.highest := by
      rw [highest_eq, run_eq]
      exact max_eq_left commit_le
    rw [proposed]
    refine locked.set found rfl (fun done => done) ⟨?_, by rintro ⟨⟩, by rintro _ ⟨⟩⟩
    intro _
    refine ⟨_, held, index_eq, rfl, rfl, .inr ⟨rfl, held, ?_⟩, ?_⟩
    · rw [bound]
      exact Nat.lt_succ_of_le low
    · intro done
      have ok := sound.calls_ok call (mem_of_getElem? found)
      have early := ok.early (by rw [registered]; rfl) done
      omega
  · have refused : (state.threads.node.propose call.data).2 = none := by rw [propose, if_pos leads]
    rw [refused]
    exact locked.advance found ⟨by rintro ⟨⟩, by rintro ⟨⟩, by rintro _ ⟨⟩⟩

theorem Sound.step (sound : Sound state) (faithful : state.Faithful machine event) :
    Sound (state.step machine response event) := by
  cases event with
  | thread _ => exact sound.threadStep faithful
  | start _ _ =>
    refine sound.withCalls continues_append ?_
    intro call member
    rcases mem_append.mp member with old | new
    · exact sound.calls_ok call old
    · rw [mem_singleton.mp new]
      exact ⟨nofun, nofun, nofun⟩
  | register _ =>
    refine sound.onCall ?_
    intro call found here ok
    have next : CallOk state.threads state.responses { call with phase := .registered } :=
      ⟨nofun, fun _ => ok.early (by rw [here]; rfl), nofun⟩
    split
    · refine Sound.advance (sound.withPending ?_) found next
      intro index owner registered
      by_cases same : index = call.proposeIdx
      · rw [same, update_self] at registered
        rw [← some.inj registered, same]
        exact ⟨call, found, rfl⟩
      · rw [update_of_ne same] at registered
        exact sound.named index owner registered
    · exact sound.advance found next
  | propose _ _ =>
    refine sound.onCall ?_
    intro call found here _
    refine sound.proposeCall found here ?_
    exact faithful call (mem_toList.mpr found) here
  | giveUp _ =>
    refine sound.onCall ?_
    intro call found _ _
    exact sound.eraseAdvance found callOk_returned_false
  | wake _ =>
    refine sound.onCall ?_
    intro call found here ok
    have live : call.phase.live = true := by rw [here]; rfl
    split
    · exact sound
    rename_i reached
    have settled := @settled_of_reached _ _ call state.responses sound.mid reached
    split
    · exact sound.advance found (ok.goesOn live settled rfl nofun)
    · exact sound.eraseAdvance found (ok.goesOn live settled rfl nofun)
  | timeout _ =>
    refine sound.onCall ?_
    intro call found _ _
    split
    · exact sound.eraseAdvance found callOk_returned_false
    · exact sound
  | slotReady _ =>
    refine sound.onCall ?_
    intro call found here ok
    have live : call.phase.live = true := by rw [here]; rfl
    have moved : call.phase ≠ .waiting := by rw [here]; exact nofun
    exact sound.eraseAdvance found (ok.goesOn live (settled_of_not_waiting moved) rfl nofun)
  | collect _ =>
    refine sound.onCall ?_
    intro call found here ok
    have live : call.phase.live = true := by rw [here]; rfl
    have moved : call.phase ≠ .waiting := by rw [here]; exact nofun
    refine sound.advance found (ok.goesOn live (settled_of_not_waiting moved) rfl ?_)
    intro value returned
    split at returned
    · rename_i answered
      have value_eq : call.slot.value = value := by simpa using returned
      exact ⟨answered.2, value_eq⟩
    · cases returned

/-- In every run in which a call's entry gets the index that the call waits for and stays in the
log, `ProposeSync` is honest. -/
theorem propose_sync_honest (machine : StateMachine σ) (response : Bool → Bytes → σ → Bytes)
    (node : Node σ) (events : List ProposalEvent)
    (faithful : Runs.Meets (step machine response) (Faithful machine) (start node) events) :
    Honest (Runs.run (step machine response) (start node) events) := by
  have reached : Sound (Runs.run (step machine response) (start node) events) :=
    faithful.invariant (sound_start) fun _ _ sound meets => sound.step meets
  exact reached.honest

/-! ## Two runs -/

instance (state : Proposals σ) : ∀ change, Decidable (state.Retains change) := by
  intro change
  induction change using Change.casesOn <;> unfold Retains <;> infer_instance

instance (machine : StateMachine σ) (state : Proposals σ) :
    ∀ event, Decidable (state.Faithful machine event) := by
  intro event
  unfold Faithful
  split <;> infer_instance

/-- A state machine's answer that repeats the command. -/
def echo (_ : Bool) (data _ : Bytes) : Bytes := data

/-- The node becomes the leader of term one; its no-op has index one. -/
def elected : List ProposalEvent :=
  [.thread .setServer, .thread (.locked 0 .electionTimeout false),
    .thread (.locked 0 .winElection true)]

/-- The second voter acknowledges the first two entries, the second of which carries these data, and
the replication thread commits and applies them. -/
def secondCommitted (data : Bytes) : List ProposalEvent :=
  [.thread (.locked 1 (.leader (.appendReply 1
      { term := 1
        leaderId := 1
        prevLogIndex := 0
        prevLogTerm := 0
        entries :=
          [{ index := 1, term := 1, type := .noOp },
           { index := 2, term := 1, type := .command, data := data }]
        leaderCommit := 0 }
      { term := 1, success := true })) false),
   .thread (.locked 1 (.leader .advanceCommitIndex) false), .thread (.finish 1 []),
   .thread (.resume 1)]

/-- One caller gets the answer to its own command. -/
theorem propose_sync_honest_oneCall :
    Honest (Runs.run (step imageMachine echo) (start Threads.freshVoter)
      (elected ++ [.start [1] true, .register 0, .propose 0 true] ++ secondCommitted [1] ++
        [.wake 0, .slotReady 0, .collect 0])) :=
  propose_sync_honest imageMachine echo Threads.freshVoter _ (by decide +kernel)

/-- A call that has returned true without its data being committed. -/
theorem not_honest_of_uncommitted (returned : (state.calls[id]?.map fun call => (call.data,
      call.phase)) = some (data, .returned true result))
    (committed_eq : state.threads.committed.map (·.data) = datas) (absent : data ∉ datas) :
    ¬ Honest state := by
  intro honest
  obtain ⟨call, found, facts⟩ := map_eq_some_iff.mp returned
  obtain ⟨own, committed, _, _, same, _⟩ :=
    honest call (mem_of_getElem? found) result (congrArg Prod.snd facts)
  refine absent (committed_eq ▸ mem_map.mpr ⟨own, committed, ?_⟩)
  exact same.trans (congrArg Prod.fst facts)

/-- Two callers read the same index. The second one's command is appended there, and the first one
returns true with the answer to it, while its own command is not committed. -/
theorem propose_sync_answers_for_other :
    let mixed := Runs.run (step imageMachine echo) (start Threads.freshVoter)
      (elected ++ [.start [1] true, .start [2] true, .register 1, .register 0,
        .propose 1 true, .propose 0 false] ++ secondCommitted [2] ++
          [.wake 0, .slotReady 0, .collect 0])
    (mixed.calls[0]?.map fun call => (call.data, call.phase)) =
        some ([1], .returned true (some [2])) ∧
      mixed.threads.committed.map (·.data) = [[], [2]] ∧ ¬ Honest mixed := by
  refine ⟨?phase, ?committed, not_honest_of_uncommitted ?phase ?committed (by decide)⟩
  all_goals decide +kernel

end Proposals

end LightKV.Raft
