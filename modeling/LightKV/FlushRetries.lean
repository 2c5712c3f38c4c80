import LightKV.Runs

/-!
# Flushes that fail

The background thread offers the immutable memtable to `WriteLevel0Table`, counts the
attempts that fail and gives up after `kMaxFlushAttempts` of them. `FlushForBackup` and
`Clear` wait on `flush_cv_` until the flush has settled. The model has the flags under
`mutex_`, the threads on `flush_cv_` and `BackgroundWork` section by section. The sections of
the callers come in any order, with any answers of `WriteLevel0Table` and of the compaction.

A memtable is offered at most `kMaxFlushAttempts` times, and a thread told to shut down
leaves its loop. A waiting thread is let go unless `Clear` takes the memtable away that it
waits for, since `Clear` resets `has_imm_` without notifying `flush_cv_`, or the next memtable
is rotated each time before the woken thread has looked.
-/

namespace LightKV.Flushing

open Runs List

@[grind =]
def kMaxFlushAttempts : Nat := 3

/-- Where `BackgroundWork` stands between two of its sections. -/
inductive Place where
  | loop
  | asleep
  | flush
  | writing (memtable : Nat)
  | scheduling
  | unlocked
  | compacting
  | left
deriving DecidableEq

/-- The bookkeeping of flushes. Memtables are numbered as they are made. -/
structure State where
  mem : Nat := 0
  imm : Option Nat := none
  hasImm : Bool := false
  attempts : Nat := 0
  scheduled : Bool := false
  shuttingDown : Bool := false
  place : Place := .loop
  /-- The threads asleep on `flush_cv_`. -/
  asleep : List Nat := []
  /-- The threads that `flush_cv_` has woken and that have yet to look at the flags. -/
  woken : List Nat := []
  /-- What `WriteLevel0Table` has been called with. -/
  handed : List Nat := []
deriving DecidableEq

namespace State

variable (state : State)

@[grind =]
def flushPending : Bool := state.hasImm && state.attempts < kMaxFlushAttempts

@[grind =]
def flushSettled : Bool := !state.hasImm || !state.flushPending

@[grind =]
def Waiting (thread : Nat) : Prop := thread ∈ state.asleep ∨ thread ∈ state.woken

@[grind =]
def notifyFlush : State := { state with asleep := [], woken := state.woken ++ state.asleep }

@[grind =]
def notifyBackground : State :=
  { state with place := if state.place = .asleep then .loop else state.place }

/-- The memtable becomes the immutable one. `TriggerFlush` schedules a round with it, the
destructor does not. -/
@[grind =]
def rotate (schedule : Bool) : State :=
  if state.hasImm then state
  else notifyBackground
    { state with
      mem := state.mem + 1, imm := some state.mem, hasImm := true, attempts := 0,
      scheduled := state.scheduled || schedule }

@[grind =]
def maybeScheduleCompaction (needs : Bool) : State :=
  if state.scheduled || state.hasImm || !needs then state
  else notifyBackground { state with scheduled := true }

@[grind =]
def onFlushFailed : State :=
  notifyFlush { state with
    attempts := state.attempts + 1
    scheduled := state.scheduled && state.attempts + 1 < kMaxFlushAttempts }

/-- `FlushMemTable` up to the call of `WriteLevel0Table`. -/
@[grind =]
def beginFlush : State :=
  if state.hasImm then
    match state.imm with
    | some memtable =>
        { state with place := .writing memtable, handed := memtable :: state.handed }
    | none =>
        notifyFlush
          { state with hasImm := false, attempts := 0, scheduled := false, place := .scheduling }
  else { state with place := .scheduling }

/-- `FlushMemTable` behind the call of `WriteLevel0Table`. -/
@[grind =]
def endFlush (ok : Bool) : State :=
  if ok then
    notifyFlush { state with
      imm := none, hasImm := false, attempts := 0, scheduled := false, place := .scheduling }
  else onFlushFailed { state with place := .scheduling }

/-- The next section of the background thread, with the answer of the table or round that it
ends and that of `PickCompaction`. -/
@[grind =]
def backgroundWork (ok needs : Bool) : State :=
  match state.place with
  | .loop =>
      if state.flushPending then { state with place := .flush }
      else if state.scheduled then { state with place := .unlocked }
      else { state with place := if state.shuttingDown then .left else .asleep }
  | .flush => state.beginFlush
  | .writing _ => state.endFlush ok
  | .scheduling => { state.maybeScheduleCompaction needs with place := .loop }
  | .unlocked => { state with place := if state.scheduled then .compacting else .loop }
  | .compacting => { state with scheduled := ok && needs, place := .loop }
  | .asleep | .left => state

end State

open State

inductive Event where
  | triggerFlush
  /-- A thread reaches the wait on `flush_cv_`. -/
  | wait (thread : Nat)
  /-- A woken thread looks at the flags again. -/
  | look (thread : Nat)
  /-- The part of `Clear` behind its wait. -/
  | clear
  /-- A writer finds a backlog and calls `MaybeScheduleCompaction`. -/
  | schedule (needs : Bool)
  /-- The destructor; a memtable with content is rotated. -/
  | close (content : Bool)
  | background (ok needs : Bool)
deriving DecidableEq

@[grind =]
def step (state : State) : Event → State
  | .triggerFlush => state.rotate true
  | .wait thread =>
      if state.flushSettled then state else { state with asleep := thread :: state.asleep }
  | .look thread =>
      if thread ∈ state.woken then
        { state with
          woken := state.woken.filter (· ≠ thread)
          asleep := if state.flushSettled then state.asleep else thread :: state.asleep }
      else state
  | .clear => { state with mem := state.mem + 1, imm := none, hasImm := false, scheduled := false }
  | .schedule needs => state.maybeScheduleCompaction needs
  | .close content =>
      notifyBackground
        (if content then rotate { state with shuttingDown := true } false
         else { state with shuttingDown := true })
  | .background ok needs => state.backgroundWork ok needs

variable {state : State} {event : Event} {rest : List Event}

/-! ## Attempts -/

/-- The attempts made with the immutable memtable are those counted and the one under way. -/
structure Counted (state : State) : Prop where
  handed_lt : ∀ memtable ∈ state.handed, memtable < state.mem
  imm_lt : ∀ memtable, state.imm = some memtable → memtable < state.mem
  count_le : ∀ memtable, state.handed.count memtable ≤ kMaxFlushAttempts
  counted : ∀ memtable, state.imm = some memtable → state.handed.count memtable ≤
    state.attempts + if state.place = .writing memtable then 1 else 0
  flush : state.place = .flush → state.attempts < kMaxFlushAttempts
  writing : ∀ memtable, state.place = .writing memtable → state.attempts < kMaxFlushAttempts

theorem Counted.step (counted : Counted state) (event : Event) :
    Counted (step state event) := by
  have fresh : state.handed.count state.mem = 0 :=
    count_eq_zero.mpr fun handed => Nat.lt_irrefl _ (counted.handed_lt _ handed)
  obtain ⟨_, _, _, _, _, _⟩ := counted
  cases event with
  | background =>
    cases place : state.place with
    -- The attempt under way is not counted yet.
    | flush => constructor <;> grind
    -- A failure counts it, a success takes the memtable away.
    | writing _ => constructor <;> grind
    | _ => constructor <;> grind
  -- A rotated memtable has not been handed out.
  | triggerFlush | close _ => constructor <;> grind
  | _ => constructor <;> grind

/-! ## Waiting threads -/

/-- A rotation takes no memtable while a thread that was woken has yet to look. -/
@[grind =]
def State.Patient (state : State) : Prop := state.hasImm = true ∨ state.woken = []

/-- Nothing is written once the destructor runs, `Clear` finds no thread asleep on `flush_cv_`, and
no rotation overtakes a thread that was woken. -/
@[grind =]
def Orderly (state : State) : Event → Prop
  | .triggerFlush => state.shuttingDown = false ∧ state.Patient
  | .close content => state.shuttingDown = false ∧ (content = true → state.Patient)
  | .schedule _ => state.shuttingDown = false
  | .clear => state.shuttingDown = false ∧ state.asleep = []
  | .wait _ | .look _ | .background .. => True

instance : Decidable state.Patient := inferInstanceAs (Decidable (_ ∨ _))

instance : Decidable (Orderly state event) := by
  unfold Orderly
  split <;> infer_instance

/-- Who sleeps has nothing to do: a thread on `flush_cv_` while the flush is tried again, the
background thread without a flush or a round. -/
structure Alert (state : State) : Prop where
  asleep : state.asleep ≠ [] → state.flushPending = true
  idle : state.place = .asleep →
    state.shuttingDown = false ∧ state.scheduled = false ∧ state.flushPending = false
  left : state.place = .left → state.shuttingDown = true ∧ state.flushPending = false

theorem Alert.step (alert : Alert state) (orderly : Orderly state event) :
    Alert (step state event) := by
  obtain ⟨_, _, _⟩ := alert
  cases event with
  | background =>
    cases place : state.place with
    -- It falls asleep or leaves only with nothing to do.
    | loop => constructor <;> grind
    -- The end of an attempt wakes every thread on `flush_cv_`.
    | writing _ => constructor <;> grind
    | _ => constructor <;> grind
  -- A rotation wakes the background thread.
  | triggerFlush | close _ => constructor <;> grind
  | _ => constructor <;> grind

/-- A bound on the sections of the background thread while no round is scheduled. -/
@[grind =]
def State.work (state : State) : Nat :=
  let retries := if state.hasImm then 8 * (kMaxFlushAttempts - state.attempts) else 0
  match state.place with
  | .left => 0
  | .loop | .asleep => retries + 1
  | .flush => if state.hasImm then retries else 6
  | .writing _ => if state.hasImm then retries - 1 else 6
  | .scheduling => retries + 5
  | .unlocked => retries + 3
  | .compacting => retries + 2

/-- What a scheduled round adds to it. -/
@[grind =]
def State.rounds (state : State) : Nat :=
  match state.place with
  | .unlocked | .compacting | .left => 0
  | _ => if state.scheduled then 3 else 0

@[grind =]
def Event.isBackground : Event → Bool
  | .background .. => true
  | _ => false

/-- The end of a round that succeeds and finds more to compact. -/
@[grind =]
def Event.rearms : Event → Bool
  | .background ok needs => ok && needs
  | _ => false

/-- While the flush is pending the background thread sees to it before any round. -/
theorem work_step (counted : Counted state) (alert : Alert state)
    (pending : state.flushPending = true) (still : (step state event).flushPending = true) :
    (step state event).work + event.isBackground.toNat ≤ state.work := by
  have ⟨_, idle, left⟩ := alert
  have flush := counted.flush
  have writing := counted.writing
  cases event with
  | background =>
    cases place : state.place with
    -- An attempt that fails costs eight sections.
    | writing _ => grind
    -- With a flush pending the thread has neither left nor fallen asleep.
    | asleep | left => grind
    | _ => grind
  | _ => grind

theorem work_step_of_shuttingDown (counted : Counted state) (alert : Alert state)
    (down : state.shuttingDown = true) (inside : state.place ≠ .left)
    (orderly : Orderly state event) :
    (step state event).work + (step state event).rounds + event.isBackground.toNat ≤
      state.work + state.rounds + 3 * event.rearms.toNat := by
  have idle := alert.idle
  have flush := counted.flush
  have writing := counted.writing
  cases event with
  | background =>
    simp only [Flushing.step, backgroundWork, Event.isBackground, Event.rearms]
    cases place : state.place <;> simp only [work, rounds, place] <;> grind
  | _ => grind

theorem shuttingDown_step (down : state.shuttingDown = true) (event : Event) :
    (step state event).shuttingDown = true := by
  cases event with
  | background => cases place : state.place <;> grind
  | _ => grind

theorem left_run (left : state.place = .left) : (run step state rest).place = .left := by
  induction rest generalizing state with
  | nil => exact left
  | cons event rest ih => exact ih (by cases event <;> grind)

theorem work_le : state.work ≤ 29 ∧ state.rounds ≤ 3 := by
  grind

/-- Within the work at hand there is a moment at which the flush has settled and no thread
sleeps. -/
theorem exists_settled (counted : Counted state) (alert : Alert state)
    (orderly : Meets step Orderly state rest)
    (many : state.flushPending = true → state.work < rest.countP Event.isBackground) :
    ∃ front, front <+: rest ∧ (run step state front).flushPending = false ∧
      (run step state front).asleep = [] := by
  induction rest generalizing state with
  | nil => exact ⟨[], prefix_rfl, by grind [run, Alert]⟩
  | cons event rest ih =>
    by_cases pending : state.flushPending = true
    · obtain ⟨front, isFront, settled⟩ := ih (counted.step event) (alert.step orderly.1) orderly.2
        fun still => by
          have less := work_step counted alert pending still
          have := many pending
          grind
      exact ⟨event :: front, by simpa using isFront, settled⟩
    · exact ⟨[], nil_prefix, by grind [run, Alert]⟩

/-- The flush has settled, nobody sleeps, and a thread that was woken has yet to look. -/
structure Roused (thread : Nat) (state : State) : Prop where
  settled : state.flushPending = false
  awake : state.asleep = []
  woken : thread ∈ state.woken

/-- Only a rotation could unsettle the flush, and none overtakes the thread. -/
theorem Roused.step (roused : Roused thread state) (orderly : Orderly state event)
    (other : event ≠ .look thread) : Roused thread (step state event) := by
  obtain ⟨settled, awake, woken⟩ := roused
  have patient : state.Patient → state.hasImm = true := fun patient =>
    patient.resolve_right (ne_nil_of_mem woken)
  cases event with
  | background => cases place : state.place <;> constructor <;> grind
  | _ => constructor <;> grind

/-- Its own look lets it go. -/
theorem Roused.look (roused : Roused thread state) :
    ¬ (Flushing.step state (.look thread)).Waiting thread := by
  obtain ⟨settled, awake, woken⟩ := roused
  grind

theorem Roused.released (roused : Roused thread state)
    (orderly : Meets Flushing.step Orderly state rest)
    (looks : .look thread ∈ rest) :
    ∃ front, front <+: rest ∧ ¬ (run Flushing.step state front).Waiting thread := by
  induction rest generalizing state with
  | nil => cases looks
  | cons event rest ih =>
    by_cases same : event = .look thread
    · subst same
      exact ⟨[.look thread], by simp, roused.look⟩
    · obtain ⟨front, isFront, released⟩ := ih (roused.step orderly.1 same) orderly.2
        ((mem_cons.mp looks).resolve_left (Ne.symm same))
      exact ⟨event :: front, by simpa using isFront, released⟩

/-- A thread that looks at the flags behind enough sections of the background thread has been let
go by then. -/
theorem exists_released (counted : Counted state) (alert : Alert state)
    (orderly : Meets step Orderly state (front ++ back))
    (many : 29 < front.countP Event.isBackground) (looks : .look thread ∈ back) :
    ∃ part, part <+: front ++ back ∧ ¬ (run step state part).Waiting thread := by
  obtain ⟨first, ⟨between, rfl⟩, settled, awake⟩ := exists_settled counted alert
    (meets_append.mp orderly).1 fun _ => Nat.lt_of_le_of_lt work_le.1 many
  rw [append_assoc] at orderly ⊢
  by_cases waiting : (run step state first).Waiting thread
  · have woken : thread ∈ (run step state first).woken := by
      simpa [State.Waiting, awake] using waiting
    obtain ⟨part, isPart, released⟩ := Roused.released ⟨settled, awake, woken⟩
      (meets_append.mp orderly).2 (mem_append_right _ looks)
    exact ⟨first ++ part, by simpa using isPart, by rwa [run_append]⟩
  · exact ⟨first, prefix_append .., waiting⟩

/-- A thread that has not left its loop has not done more than the work at hand and the
rounds that rearm themselves. -/
theorem left_or_countP_le (counted : Counted state) (alert : Alert state)
    (down : state.shuttingDown = true) (orderly : Meets step Orderly state rest) :
    (run step state rest).place = .left ∨ rest.countP Event.isBackground ≤
      state.work + state.rounds + 3 * rest.countP Event.rearms := by
  induction rest generalizing state with
  | nil => exact .inr (Nat.zero_le _)
  | cons event rest ih =>
    by_cases left : state.place = .left
    · exact .inl (left_run left)
    have less := work_step_of_shuttingDown counted alert down left orderly.1
    refine (ih (counted.step event) (alert.step orderly.1) (shuttingDown_step down event)
      orderly.2).imp id fun bound => ?_
    grind

/-- A memtable is offered at most `kMaxFlushAttempts` times. In an orderly run a waiting thread is
let go once it looks at the flags behind thirty sections of the background thread, and that
thread leaves its loop once it is told to and the rounds no longer rearm themselves. -/
theorem flushes_settle (events rest : List Event) :
    (∀ memtable, (run step {} events).handed.count memtable ≤ kMaxFlushAttempts) ∧
      (Meets step Orderly {} (events ++ rest) →
        (∀ thread front back, rest = front ++ back → 29 < front.countP Event.isBackground →
          .look thread ∈ back → ∃ part, part <+: rest ∧
            ¬ (run step (run step {} events) part).Waiting thread) ∧
        ((run step {} events).shuttingDown = true →
          32 + 3 * rest.countP Event.rearms < rest.countP Event.isBackground →
          (run step (run step {} events) rest).place = .left)) := by
  have free : Meets step (fun _ _ => True) {} events := meets_of_forall fun _ _ => trivial
  have counted : Counted (run step {} events) :=
    free.invariant (by constructor <;> simp) fun _ event counted _ => counted.step event
  refine ⟨counted.count_le, fun orderly => ?_⟩
  obtain ⟨before, orderly⟩ := meets_append.mp orderly
  have alert : Alert (run step {} events) :=
    before.invariant (by constructor <;> simp) fun _ _ alert => alert.step
  refine ⟨?_, fun down many => ?_⟩
  · rintro thread front back rfl many looks
    exact exists_released counted alert orderly many looks
  · obtain ⟨work, rounds⟩ := @work_le (run step {} events)
    refine (left_or_countP_le counted alert down orderly).resolve_right fun short => ?_
    omega

theorem flushes_settle_failing :
    let events : List Event := [.triggerFlush, .wait 1, .close true]
    let rest : List Event := replicate 33 (.background false true) ++ [.look 1]
    (∃ part, part <+: rest ∧ ¬ (run step (run step {} events) part).Waiting 1) ∧
      (run step (run step {} events) rest).place = .left :=
  have ⟨settled, leaves⟩ := (flushes_settle _ _).2 (by decide +kernel)
  ⟨settled 1 _ _ rfl (by decide) (by decide), leaves (by decide) (by decide)⟩

/-- `Clear` had passed its wait before the flush was triggered that thread `0` waits for. The
flush has settled, the background thread sleeps, and nobody wakes thread `0`. -/
theorem clear_strands_waiter :
    let state := run step {} [.triggerFlush, .wait 0, .clear, .background true true]
    state.flushSettled = true ∧ 0 ∈ state.asleep ∧ step state (.look 0) = state ∧
      ∀ ok needs, step state (.background ok needs) = state := by
  decide

end LightKV.Flushing
