import Mathlib.Order.Lattice

/-!
# Group commit

A synchronous write announces itself, appends its record under the write lock and calls
`SyncWALTo` with the number the record has in its WAL file. One caller at a time syncs the
file for all records that are in it; the others wait and look again. A rotation puts a new
file in place of the old one. The counters belong to the file and start again with it,
while writers still hold numbers of the old file.

The threads run at the granularity of the locks: what happens under `wal_sync_mu_` is one
step, the write lock is held over the steps of a rotation, and a sync is three steps, one
that registers it, one that reads the write position and one at which the disk is done.
Every sync succeeds. The numbers of records in the files, and how many of them a completed
sync covers, are kept for all files.

A record in an older file is covered by the sync of the rotation that replaced the file,
since its writer had announced itself before. So a number of an older file may be compared
with the counter of a newer one: whatever the comparison says, the record is safe.
-/

namespace LightKV

open Function Option

namespace GroupCommit

/-- Where a synchronous write is. -/
inductive Phase where
  /-- In front of `NoteSyncRequest`. -/
  | idle
  /-- In front of the append. -/
  | noted
  /-- At the head of the loop of `SyncWALTo`. -/
  | checking
  /-- In `sync_cv_.wait`. -/
  | waiting
  /-- `syncing_` is set; the file is not captured yet. -/
  | leading
  /-- The file and the covered records are captured. -/
  | registered (target covered : Nat)
  /-- In `Sync`, for the records up to the write position that was read. -/
  | flushing (target covered upto : Nat)
  /-- `Sync` has returned. -/
  | flushed (target covered : Nat)
  /-- In front of `notify_all`. -/
  | published
  /-- `SyncWALTo` has returned OK. -/
  | returned
  deriving DecidableEq, Repr

/-- A synchronous write: its phase, the file its record went to and its number there. -/
structure Writer where
  phase : Phase
  file : Nat
  walIndex : Nat
  deriving DecidableEq, Repr

/-- Where a rotation is. It holds the write lock unless it is `free`. -/
inductive Rotation where
  | free
  | locked
  | synced
  deriving DecidableEq, Repr

/-- The shared variables, the files and the writers. Files are numbered by `wal_gen_`. -/
structure State (W : Type) where
  written : Nat → Nat
  durable : Nat → Nat
  closed : Nat → Bool
  walGen : Nat
  walWritten : Nat
  walSynced : Nat
  walSyncInflight : Nat
  syncing : Bool
  syncRequested : Bool
  rotation : Rotation
  immWal : Option Nat
  writer : W → Writer

/-- The steps. -/
inductive Event (W : Type) where
  | noteSyncRequest (writer : W)
  | append (writer : W)
  /-- A write that does not ask for a sync. -/
  | appendUnsynced
  | check (writer : W)
  /-- A wakeup without a notification. -/
  | wake (writer : W)
  | capture (writer : W)
  | beginSync (writer : W)
  | endSync (writer : W)
  | publish (writer : W)
  | notifyAll (writer : W)
  | lockRotation
  | syncOutgoing
  | swapWal
  /-- The next file cannot be opened. -/
  | keepWal
  | closeImmWal

/-- The threads that take steps of their own: writers and rotations. -/
inductive Thread (W : Type) where
  | writer (writer : W)
  | rotation

/-- Whose step an event is. -/
def Event.actor {W : Type} : Event W → Option (Thread W)
  | .noteSyncRequest writer | .append writer | .check writer | .capture writer
  | .beginSync writer | .endSync writer | .publish writer | .notifyAll writer =>
      some (.writer writer)
  | .syncOutgoing | .swapWal | .keepWal => some .rotation
  | .appendUnsynced | .wake _ | .lockRotation | .closeImmWal => none

variable {W : Type} {writer : Writer}

/-- The state before any write. -/
def initial : State W where
  written _ := 0
  durable _ := 0
  closed _ := false
  walGen := 0
  walWritten := 0
  walSynced := 0
  walSyncInflight := 0
  syncing := false
  syncRequested := false
  rotation := .free
  immWal := none
  writer _ := ⟨.idle, 0, 0⟩

section Steps

variable [DecidableEq W]

namespace State

variable (state : State W)

/-- Move a writer. -/
def move (writer : W) (phase : Phase) : State W :=
  { state with
    writer := update state.writer writer { state.writer writer with phase := phase } }

/-- A record at the end of the current file. -/
def appendRecord : State W :=
  { state with
    written := update state.written state.walGen (state.written state.walGen + 1)
    walWritten := state.walWritten + 1 }

/-- A completed sync of a file up to a position. -/
def cover (file upto : Nat) : State W :=
  { state with
    durable := update state.durable file (max (state.durable file) upto) }

/-- What `Sync` reads as the write position: a closed file has no mapping, and nothing is
synced. -/
def extent (file : Nat) : Nat :=
  if state.closed file then 0 else state.written file

/-- The record of a writer at the end of the current file. -/
def appendFor (writer : W) : State W :=
  { state.appendRecord with
    writer := update state.writer writer
      ⟨.checking, state.walGen, state.walWritten + 1⟩ }

/-- A writer sets `syncing_`. -/
def lead (writer : W) : State W :=
  { state.move writer .leading with syncing := true }

/-- The leader captures the current file with all its records. -/
def capture (writer : W) : State W :=
  { state.move writer (.registered state.walGen state.walWritten) with
    walSyncInflight := state.walSyncInflight + 1 }

/-- The end of a sync, with what it has covered. -/
def publish (writer : W) (target covered : Nat) : State W :=
  { state.move writer .published with
    walSyncInflight := state.walSyncInflight - 1
    syncing := false
    walSynced := if target = state.walGen ∧ state.walSynced < covered then covered
      else state.walSynced }

/-- A writer returns, and those that wait look again. -/
def notifyAll (writer : W) : State W :=
  { state with
    writer := fun other =>
      if other = writer then { state.writer other with phase := .returned }
      else if (state.writer other).phase = .waiting then
        { state.writer other with phase := .checking }
      else state.writer other }

omit [DecidableEq W] in
/-- The outgoing file is synced if anybody has asked for it. -/
def syncOutgoing : State W :=
  { (if state.syncRequested then state.cover state.walGen (state.extent state.walGen)
      else state) with rotation := .synced }

omit [DecidableEq W] in
/-- The next file in the place of the current one. -/
def swapWal : State W :=
  { state with
    immWal := some state.walGen
    walGen := state.walGen + 1
    written := update state.written (state.walGen + 1) 0
    durable := update state.durable (state.walGen + 1) 0
    walWritten := 0
    walSynced := 0
    rotation := .free }

end State

/-- One step, if it is possible. -/
def step (state : State W) : Event W → Option (State W)
  | .noteSyncRequest writer =>
      if (state.writer writer).phase = .idle then
        some { state.move writer .noted with syncRequested := true }
      else none
  | .append writer =>
      if (state.writer writer).phase = .noted ∧ state.rotation = .free then
        some (state.appendFor writer)
      else none
  | .appendUnsynced => if state.rotation = .free then some state.appendRecord else none
  | .check writer =>
      if (state.writer writer).phase = .checking then
        if (state.writer writer).walIndex ≤ state.walSynced then
          some (state.move writer .returned)
        else if state.syncing then some (state.move writer .waiting)
        else some (state.lead writer)
      else none
  | .wake writer =>
      if (state.writer writer).phase = .waiting then some (state.move writer .checking) else none
  | .capture writer =>
      if (state.writer writer).phase = .leading ∧ state.rotation = .free then
        some (state.capture writer)
      else none
  | .beginSync writer =>
      match (state.writer writer).phase with
      | .registered target covered =>
          some (state.move writer (.flushing target covered (state.extent target)))
      | _ => none
  | .endSync writer =>
      match (state.writer writer).phase with
      | .flushing target covered upto =>
          some ((state.cover target upto).move writer (.flushed target covered))
      | _ => none
  | .publish writer =>
      match (state.writer writer).phase with
      | .flushed target covered => some (state.publish writer target covered)
      | _ => none
  | .notifyAll writer =>
      if (state.writer writer).phase = .published then some (state.notifyAll writer) else none
  | .lockRotation =>
      if state.rotation = .free ∧ state.immWal = none then
        some { state with rotation := .locked }
      else none
  | .syncOutgoing =>
      if state.rotation = .locked then some state.syncOutgoing else none
  | .swapWal =>
      if state.rotation = .synced then some state.swapWal else none
  | .keepWal =>
      if state.rotation = .locked then some { state with rotation := .free } else none
  | .closeImmWal =>
      match state.immWal with
      | some file =>
          if state.walSyncInflight = 0 then
            some { state with closed := update state.closed file true, immWal := none }
          else none
      | none => none

/-- The steps with the conditions under which they are possible. -/
inductive Steps (state : State W) : Event W → State W → Prop where
  | noteSyncRequest {writer : W} (idle : (state.writer writer).phase = .idle) :
      Steps state (.noteSyncRequest writer) { state.move writer .noted with syncRequested := true }
  | append {writer : W} (ready : (state.writer writer).phase = .noted ∧ state.rotation = .free) :
      Steps state (.append writer) (state.appendFor writer)
  | appendUnsynced (free : state.rotation = .free) : Steps state .appendUnsynced state.appendRecord
  | finish {writer : W} (checking : (state.writer writer).phase = .checking)
      (enough : (state.writer writer).walIndex ≤ state.walSynced) :
      Steps state (.check writer) (state.move writer .returned)
  | wait {writer : W} (checking : (state.writer writer).phase = .checking)
      (running : state.syncing = true) : Steps state (.check writer) (state.move writer .waiting)
  | lead {writer : W} (checking : (state.writer writer).phase = .checking)
      (stopped : state.syncing = false) : Steps state (.check writer) (state.lead writer)
  | wake {writer : W} (waiting : (state.writer writer).phase = .waiting) :
      Steps state (.wake writer) (state.move writer .checking)
  | capture {writer : W} (ready : (state.writer writer).phase = .leading ∧ state.rotation = .free) :
      Steps state (.capture writer) (state.capture writer)
  | beginSync {writer : W} {target covered : Nat}
      (registered : (state.writer writer).phase = .registered target covered) :
      Steps state (.beginSync writer)
        (state.move writer (.flushing target covered (state.extent target)))
  | endSync {writer : W} {target covered upto : Nat}
      (flushing : (state.writer writer).phase = .flushing target covered upto) :
      Steps state (.endSync writer)
        ((state.cover target upto).move writer (.flushed target covered))
  | publish {writer : W} {target covered : Nat}
      (flushed : (state.writer writer).phase = .flushed target covered) :
      Steps state (.publish writer) (state.publish writer target covered)
  | notifyAll {writer : W} (published : (state.writer writer).phase = .published) :
      Steps state (.notifyAll writer) (state.notifyAll writer)
  | lockRotation (ready : state.rotation = .free ∧ state.immWal = none) :
      Steps state .lockRotation { state with rotation := .locked }
  | syncOutgoing (locked : state.rotation = .locked) :
      Steps state .syncOutgoing state.syncOutgoing
  | swapWal (synced : state.rotation = .synced) : Steps state .swapWal state.swapWal
  | keepWal (locked : state.rotation = .locked) :
      Steps state .keepWal { state with rotation := .free }
  | closeImmWal {file : Nat} (present : state.immWal = some file)
      (quiet : state.walSyncInflight = 0) :
      Steps state .closeImmWal
        { state with closed := update state.closed file true, immWal := none }

theorem steps_of_step {state later : State W}
    (taken : step state event = some later) : Steps state event later := by
  cases event with
  | check _ =>
    simp only [step, ite_none_right_eq_some] at taken
    obtain ⟨checking, taken⟩ := taken
    split_ifs at taken with enough running
    · cases taken
      exact .finish checking enough
    · cases taken
      exact .wait checking running
    · cases taken
      exact .lead checking (by simpa using running)
  | beginSync _ | endSync _ | publish _ =>
    simp only [step] at taken
    split at taken
    · cases taken
      constructor
      assumption
    · cases taken
  | closeImmWal =>
    simp only [step] at taken
    split at taken
    · rename_i present
      simp only [ite_none_right_eq_some, some.injEq] at taken
      obtain ⟨quiet, rfl⟩ := taken
      exact .closeImmWal present quiet
    · cases taken
  | noteSyncRequest _ | append _ | appendUnsynced | wake _ | capture _
  | notifyAll _ | lockRotation | syncOutgoing | swapWal | keepWal =>
    simp only [step, ite_none_right_eq_some, some.injEq] at taken
    obtain ⟨possible, rfl⟩ := taken
    constructor
    exact possible

end Steps

/-! ## What the record of a writer is known to have -/

/-- The writer that runs a sync, from the moment it has set `syncing_`. -/
def Phase.leads : Phase → Bool
  | .leading | .registered _ _ | .flushing _ _ _ | .flushed _ _ => true
  | _ => false

/-- The file a registered sync is for. -/
def Phase.target? : Phase → Option Nat
  | .registered target _ | .flushing target _ _ | .flushed target _ => some target
  | _ => none

/-- A record of an older file is covered, also while the outgoing file is already synced. -/
structure Recorded (state : State W) (writer : Writer) : Prop where
  file_le : writer.file ≤ state.walGen
  walIndex_le : writer.walIndex ≤ state.written writer.file
  announced : state.syncRequested = true
  older : writer.file < state.walGen ∨ state.rotation = .synced →
    writer.walIndex ≤ state.durable writer.file

/-- A captured sync is for the file of the record or a newer one, and in the first case for the
record. -/
structure Captured (state : State W) (writer : Writer) (target covered : Nat) : Prop where
  target_le : target ≤ state.walGen
  file_le : writer.file ≤ target
  covered_le : covered ≤ state.written target
  includes : writer.file = target → writer.walIndex ≤ covered

/-- What holds of a writer in its phase. -/
def Sound (state : State W) (writer : Writer) : Prop :=
  match writer.phase with
  | .idle => True
  | .noted => state.syncRequested = true
  | .checking | .waiting | .leading => Recorded state writer
  | .registered target covered => Recorded state writer ∧ Captured state writer target covered
  | .flushing target covered upto =>
      Recorded state writer ∧ Captured state writer target covered ∧ covered ≤ upto
  | .flushed target covered =>
      Recorded state writer ∧ Captured state writer target covered ∧
        covered ≤ state.durable target
  | .published | .returned =>
      Recorded state writer ∧ writer.walIndex ≤ state.durable writer.file

/-- At most one writer leads; its sync is the one that is counted, and its file is open. -/
structure Leadership (phase : W → Phase) (syncing : Bool) (inflight : Nat) (closed : Nat → Bool) :
    Prop where
  unique : ∀ first second, (phase first).leads = true → (phase second).leads = true →
    first = second
  led : ∀ writer, (phase writer).leads = true → syncing = true
  leader : syncing = true → ∃ writer, (phase writer).leads = true
  counted : ∀ writer target, (phase writer).target? = some target → inflight = 1
  idle : (∀ writer, (phase writer).target? = none) → inflight = 0
  opened : ∀ writer target, (phase writer).target? = some target → closed target = false

/-- A writer waits for a sync that is running, or for the notification behind it. -/
def Awaited (phase : W → Phase) (syncing : Bool) : Prop :=
  ∀ writer, phase writer = .waiting → syncing = true ∨ ∃ other, phase other = .published

/-- The phases of the writers. -/
def State.phase (state : State W) (writer : W) : Phase :=
  (state.writer writer).phase

/-- The invariant. -/
structure Inv (state : State W) : Prop where
  counted : state.walWritten = state.written state.walGen
  synced_le : state.walSynced ≤ state.durable state.walGen
  closed_lt : ∀ file, state.closed file = true → file < state.walGen
  immWal_lt : ∀ file, state.immWal = some file → file < state.walGen
  sound : ∀ writer, Sound state (state.writer writer)
  leadership : Leadership state.phase state.syncing state.walSyncInflight state.closed
  awaited : Awaited state.phase state.syncing

/-- What later states keep for a writer that does not move: files only grow, and a file that is
rotated out is covered. -/
structure Grows (state later : State W) : Prop where
  walGen_le : state.walGen ≤ later.walGen
  written_le : ∀ file ≤ state.walGen, state.written file ≤ later.written file
  durable_le : ∀ file ≤ state.walGen, state.durable file ≤ later.durable file
  announced : state.syncRequested = true → later.syncRequested = true
  older : ∀ file ≤ state.walGen, file < later.walGen ∨ later.rotation = .synced →
    (file < state.walGen ∨ state.rotation = .synced) ∨
      (state.syncRequested = true → later.durable file ≥ state.written file)

variable {state later : State W}

theorem Recorded.grows (recorded : Recorded state writer) (grows : Grows state later) :
    Recorded later writer where
  file_le := le_trans recorded.file_le grows.walGen_le
  walIndex_le := le_trans recorded.walIndex_le (grows.written_le _ recorded.file_le)
  announced := grows.announced recorded.announced
  older rotated := by
    rcases grows.older writer.file recorded.file_le rotated with before | covered
    · exact le_trans (recorded.older before) (grows.durable_le _ recorded.file_le)
    · exact le_trans recorded.walIndex_le (covered recorded.announced)

theorem Recorded.withPhase (recorded : Recorded state writer) :
    Recorded state { writer with phase := phase } :=
  ⟨recorded.file_le, recorded.walIndex_le, recorded.announced, recorded.older⟩

theorem Captured.withPhase (captured : Captured state writer target covered) :
    Captured state { writer with phase := phase } target covered :=
  ⟨captured.target_le, captured.file_le, captured.covered_le, captured.includes⟩

theorem Captured.grows (captured : Captured state writer target covered)
    (grows : Grows state later) : Captured later writer target covered where
  target_le := le_trans captured.target_le grows.walGen_le
  file_le := captured.file_le
  covered_le := le_trans captured.covered_le (grows.written_le _ captured.target_le)
  includes := captured.includes

/-- A writer that does not move stays sound. -/
theorem Sound.grows (sound : Sound state writer) (grows : Grows state later) :
    Sound later writer := by
  obtain ⟨phase, _, _⟩ := writer
  cases phase with
  | idle => trivial
  | noted => exact grows.announced sound
  | checking | waiting | leading => exact Recorded.grows sound grows
  | registered _ _ => exact ⟨sound.1.grows grows, sound.2.grows grows⟩
  | flushing _ _ _ => exact ⟨sound.1.grows grows, sound.2.1.grows grows, sound.2.2⟩
  | flushed _ _ =>
    exact ⟨sound.1.grows grows, sound.2.1.grows grows,
      le_trans sound.2.2 (grows.durable_le _ sound.2.1.target_le)⟩
  | published | returned =>
    exact ⟨sound.1.grows grows, le_trans sound.2 (grows.durable_le _ sound.1.file_le)⟩

/-- Nothing happens to the files and the rotation. -/
structure SameFiles (state later : State W) : Prop where
  walGen : later.walGen = state.walGen
  written : later.written = state.written
  durable : later.durable = state.durable
  closed : later.closed = state.closed
  walWritten : later.walWritten = state.walWritten
  immWal : later.immWal = state.immWal
  rotation : later.rotation = state.rotation
  announced : state.syncRequested = true → later.syncRequested = true

theorem SameFiles.grows (same : SameFiles state later) : Grows state later where
  walGen_le := le_of_eq same.walGen.symm
  written_le _ _ := by rw [same.written]
  durable_le _ _ := by rw [same.durable]
  announced := same.announced
  older file _ rotated := by
    rw [same.walGen, same.rotation] at rotated
    exact .inl rotated

/-- What a record is known to have once its writer is behind the append. -/
theorem Sound.recorded (sound : Sound state writer)
    (behind : writer.phase ≠ .idle ∧ writer.phase ≠ .noted) : Recorded state writer := by
  obtain ⟨phase, _, _⟩ := writer
  cases phase with
  | idle => exact absurd rfl behind.1
  | noted => exact absurd rfl behind.2
  | checking => exact sound
  | waiting => exact sound
  | leading => exact sound
  | registered _ _ | flushing _ _ _
  | flushed _ _ | published | returned => exact sound.1

/-! ## The leader -/

namespace Leadership

variable {phase after : W → Phase} {syncing : Bool} {inflight : Nat} {closed : Nat → Bool}

theorem leads_of_target {phase : Phase} (captured : phase.target? = some target) :
    phase.leads = true := by
  cases phase <;> simp_all [Phase.target?, Phase.leads]

theorem target_eq_none {phase : Phase} (free : phase.leads = true → phase.target? = none) :
    phase.target? = none := by
  cases captured : phase.target? with
  | none => rfl
  | some _ => exact captured ▸ free (leads_of_target captured)

/-- Nobody leads. -/
theorem of_free (free : ∀ writer, (phase writer).leads = false) :
    Leadership phase false 0 closed := by
  have no_target : ∀ writer, (phase writer).target? = none :=
    fun writer => target_eq_none (by simp [free writer])
  constructor
  all_goals simp [free, no_target]

/-- A writer takes the lead when nobody has it. -/
theorem lead [DecidableEq W] {writer : W} (leadership : Leadership phase false inflight closed) :
    Leadership (Function.update phase writer .leading) true inflight closed := by
  have none_leads : ∀ other, (phase other).leads = false := by
    intro other
    simpa using mt (leadership.led other)
  have free : ∀ other, (phase other).target? = none :=
    fun other => target_eq_none (by simp [none_leads other])
  have own : ∀ other, (Function.update phase writer .leading other).leads = true ↔
      other = writer := by
    intro other
    by_cases same : other = writer
    · simp [same, Phase.leads]
    · simp [same, none_leads]
  have no_target : ∀ other, (Function.update phase writer .leading other).target? = none := by
    intro other
    by_cases same : other = writer
    · simp [same, Phase.target?]
    · simp [same, free]
  constructor
  case idle => exact fun _ => leadership.idle free
  all_goals simp [own, no_target]

variable (leadership : Leadership phase syncing inflight closed)
include leadership

/-- Phases that lead and capture as before. -/
theorem congr
    (leads : ∀ writer, (after writer).leads = (phase writer).leads)
    (target : ∀ writer, (after writer).target? = (phase writer).target?) :
    Leadership after syncing inflight closed where
  unique := by simpa only [leads] using leadership.unique
  led := by simpa only [leads] using leadership.led
  leader := by simpa only [leads] using leadership.leader
  counted := by simpa only [target] using leadership.counted
  idle := by simpa only [target] using leadership.idle
  opened := by simpa only [target] using leadership.opened

variable [DecidableEq W] {writer : W}

/-- One writer changes its phase without taking or giving up the lead. -/
theorem update (before : phase writer = previous) (leads : next.leads = previous.leads)
    (target : next.target? = previous.target?) :
    Leadership (update phase writer next) syncing inflight closed := by
  apply leadership.congr
  · intro other
    by_cases same : other = writer
    · rw [same, update_self, leads, before]
    · rw [update_of_ne same]
  · intro other
    by_cases same : other = writer
    · rw [same, update_self, target, before]
    · rw [update_of_ne same]

/-- The leader captures an open file. -/
theorem capture (leading : phase writer = .leading) {target covered : Nat}
    (opened : closed target = false) :
    Leadership (Function.update phase writer (.registered target covered)) syncing (inflight + 1)
      closed := by
  have own_leads : (phase writer).leads = true := by rw [leading]; rfl
  have others : ∀ other, (phase other).target? = none := by
    intro other
    apply target_eq_none
    intro leads
    rw [leadership.unique other writer leads own_leads, leading]
    rfl
  have leads_iff : ∀ other,
      (Function.update phase writer (.registered target covered) other).leads =
        (phase other).leads := by
    intro other
    by_cases same : other = writer
    · rw [same, update_self, own_leads]
      rfl
    · rw [update_of_ne same]
  have none_before := leadership.idle others
  refine ⟨?_, ?_, ?_, ?_, ?_, ?_⟩
  · simpa only [leads_iff] using leadership.unique
  · simpa only [leads_iff] using leadership.led
  · simpa only [leads_iff] using leadership.leader
  · omega
  · intro empty
    have own := empty writer
    rw [update_self] at own
    cases own
  · intro other _ captured
    by_cases same : other = writer
    · rw [same, update_self] at captured
      cases captured
      exact opened
    · rw [update_of_ne same, others other] at captured
      cases captured

/-- The leader gives up the lead. -/
theorem release (flushed : phase writer = .flushed target covered) :
    Leadership (Function.update phase writer .published) false (inflight - 1) closed := by
  have own_leads : (phase writer).leads = true := by rw [flushed]; rfl
  have one := leadership.counted writer target (by rw [flushed]; rfl)
  rw [one]
  apply of_free
  intro other
  by_cases same : other = writer
  · rw [same, update_self]
    rfl
  · rw [update_of_ne same]
    simpa using mt (leadership.unique other writer · own_leads) same

end Leadership

/-! ## Every step keeps the invariant -/

theorem inv_initial : Inv (initial : State W) where
  counted := rfl
  synced_le := le_refl _
  closed_lt _ := nofun
  immWal_lt _ := nofun
  sound _ := trivial
  leadership := .of_free fun _ => rfl
  awaited _ := nofun

theorem Awaited.update [DecidableEq W] {phase : W → Phase} {syncing : Bool} {writer : W}
    {next : Phase} (awaited : Awaited phase syncing) (before : phase writer = previous)
    (quiet : previous ≠ .published) (waits : next = .waiting → syncing = true) :
    Awaited (update phase writer next) syncing := by
  intro other waiting
  by_cases same : other = writer
  · rw [same, update_self] at waiting
    exact .inl (waits waiting)
  rw [update_of_ne same] at waiting
  refine (awaited other waiting).imp_right ?_
  rintro ⟨notifier, published⟩
  refine ⟨notifier, ?_⟩
  rw [update_of_ne, published]
  intro equal
  exact quiet (before.symm.trans (equal ▸ published))

theorem Inv.sound_of_phase (inv : Inv state) {writer : W}
    (phase_eq : (state.writer writer).phase = phase) :
    Sound state { state.writer writer with phase := phase } := by
  rw [← phase_eq]
  exact inv.sound writer

/-- The surroundings change and no writer moves. -/
theorem Inv.surroundings (inv : Inv state) (grows : Grows state later)
    (writers : later.writer = state.writer) (syncing : later.syncing = state.syncing)
    (inflight : later.walSyncInflight = state.walSyncInflight)
    (opened : ∀ writer target, (state.phase writer).target? = some target →
      later.closed target = false) (counted : later.walWritten = later.written later.walGen)
    (synced_le : later.walSynced ≤ later.durable later.walGen)
    (closed_lt : ∀ file, later.closed file = true → file < later.walGen)
    (immWal_lt : ∀ file, later.immWal = some file → file < later.walGen) : Inv later := by
  have phases : later.phase = state.phase := by
    unfold State.phase
    rw [writers]
  refine ⟨counted, synced_le, closed_lt, immWal_lt, ?_, ?_, ?_⟩
  · intro writer
    rw [writers]
    exact (inv.sound writer).grows grows
  · rw [phases, syncing, inflight]
    exact { inv.leadership with opened := opened }
  · rw [phases, syncing]
    exact inv.awaited

theorem grows_appendRecord (state : State W) : Grows state state.appendRecord where
  walGen_le := le_refl _
  written_le file _ := by
    by_cases same : file = state.walGen
    · simp [State.appendRecord, same]
    · simp [State.appendRecord, same]
  durable_le _ _ := le_refl _
  announced announced := announced
  older _ _ rotated := .inl rotated

theorem Inv.counted_appendRecord (inv : Inv state) :
    state.appendRecord.walWritten = state.appendRecord.written state.appendRecord.walGen := by
  simp [State.appendRecord, inv.counted]

/-- A completed sync. -/
theorem grows_cover (state : State W) (file upto : Nat) : Grows state (state.cover file upto) where
  walGen_le := le_refl _
  written_le _ _ := le_refl _
  durable_le other _ := by
    by_cases same : other = file
    · simp [State.cover, same]
    · simp [State.cover, same]
  announced announced := announced
  older _ _ rotated := .inl rotated

/-- The current file is open. -/
theorem Inv.current_open (inv : Inv state) : state.closed state.walGen = false := by
  cases closed : state.closed state.walGen with
  | false => rfl
  | true => exact absurd (inv.closed_lt _ closed) (lt_irrefl _)

theorem Inv.syncOutgoing (inv : Inv state) : Inv state.syncOutgoing := by
  have extent_eq : state.extent state.walGen = state.written state.walGen := by
    rw [State.extent, inv.current_open]
    rfl
  have covering := grows_cover state state.walGen (state.extent state.walGen)
  unfold State.syncOutgoing
  split
  · refine inv.surroundings ?_ rfl rfl rfl inv.leadership.opened inv.counted
      (le_trans inv.synced_le (covering.durable_le _ (le_refl _))) inv.closed_lt inv.immWal_lt
    refine ⟨le_refl _, fun _ _ => le_refl _, covering.durable_le, id, ?_⟩
    intro _ bound _
    rcases lt_or_eq_of_le bound with older | current
    · exact .inl (.inl older)
    · refine .inr fun _ => ?_
      simp only [State.cover, current, update_self, extent_eq]
      exact le_max_right _ _
  · rename_i quiet
    refine inv.surroundings ?_ rfl rfl rfl inv.leadership.opened inv.counted inv.synced_le
      inv.closed_lt inv.immWal_lt
    refine ⟨le_refl _, fun _ _ => le_refl _, fun _ _ => le_refl _, id, ?_⟩
    intro _ _ _
    exact .inr fun announced => absurd announced quiet

/-- The next file takes the place of the outgoing one. -/
theorem Inv.swapWal (inv : Inv state) (synced : state.rotation = .synced) : Inv state.swapWal := by
  have kept : ∀ (numbers : Nat → Nat), ∀ file ≤ state.walGen,
      numbers file ≤ update numbers (state.walGen + 1) 0 file := by
    intro _ _ _
    rw [update_of_ne (by omega)]
  refine inv.surroundings ?_ rfl rfl rfl inv.leadership.opened ?_ (Nat.zero_le _) ?_ ?_
  · refine ⟨Nat.le_succ _, kept _, kept _, id, ?_⟩
    intro _ _ _
    exact .inl (.inr synced)
  · simp [State.swapWal]
  · intro file closed
    exact Nat.lt_succ_of_lt (inv.closed_lt file closed)
  · intro _ present
    cases present
    exact Nat.lt_succ_self _

/-- Closing the rotated file waits for the syncs that are registered. -/
theorem Inv.closeImmWal (inv : Inv state) (present : state.immWal = some file)
    (quiet : state.walSyncInflight = 0) :
    Inv { state with closed := update state.closed file true, immWal := none } := by
  refine inv.surroundings
    ⟨le_refl _, fun _ _ => le_refl _, fun _ _ => le_refl _, id,
      fun _ _ => .inl⟩ rfl rfl rfl ?_ inv.counted inv.synced_le ?_ (fun _ => nofun)
  · intro writer target captured
    have running := inv.leadership.counted writer target captured
    omega
  · intro other closed
    by_cases same : other = file
    · exact same ▸ inv.immWal_lt file present
    · exact inv.closed_lt other ((update_of_ne same _ _).symm.trans closed)

section Inv

variable [DecidableEq W] {writer : W}

theorem phase_update (moved : Writer) (writers : later.writer =
    update state.writer writer moved) :
    later.phase = update state.phase writer moved.phase := by
  funext other
  unfold State.phase
  rw [writers]
  by_cases same : other = writer
  · rw [same, update_self, update_self]
  · rw [update_of_ne same, update_of_ne same]

section

variable (inv : Inv state)
include inv

/-- If one writer moves, the others stay sound. -/
theorem Inv.sound_update (grows : Grows state later)
    (writers : later.writer = update state.writer writer moved)
    (sound : Sound later moved) : ∀ other, Sound later (later.writer other) := by
  rw [writers]
  refine (forall_update_iff _ fun _ => Sound later).mpr ⟨sound, ?_⟩
  intro other _
  exact (inv.sound other).grows grows

/-- One writer moves and the files stay as they are. -/
theorem Inv.moved (same : SameFiles state later) {moved : Writer}
    (writers : later.writer = update state.writer writer moved)
    (synced_le : later.walSynced ≤ state.durable state.walGen) (sound : Sound later moved)
    (leadership : Leadership (update state.phase writer moved.phase) later.syncing
      later.walSyncInflight state.closed)
    (awaited : Awaited (update state.phase writer moved.phase) later.syncing) :
    Inv later := by
  have phases := phase_update moved writers
  refine ⟨?_, ?_, ?_, ?_, inv.sound_update same.grows writers sound, ?_, ?_⟩
  · rw [same.walWritten, same.written, same.walGen]
    exact inv.counted
  · rw [same.durable, same.walGen]
    exact synced_le
  · rw [same.closed, same.walGen]
    exact inv.closed_lt
  · rw [same.immWal, same.walGen]
    exact inv.immWal_lt
  · rw [phases, same.closed]
    exact leadership
  · rw [phases]
    exact awaited

/-- A writer moves without taking or giving up the lead, and nothing else changes. -/
theorem Inv.move (before : (state.writer writer).phase = previous)
    (sound : Sound state { state.writer writer with phase := next })
    (leads : next.leads = previous.leads) (target : next.target? = previous.target?)
    (quiet : previous ≠ .published) (waits : next = .waiting → state.syncing = true) :
    Inv (state.move writer next) := by
  have same : SameFiles state (state.move writer next) :=
    ⟨rfl, rfl, rfl, rfl, rfl, rfl, rfl, id⟩
  exact inv.moved same rfl inv.synced_le (sound.grows same.grows)
    (inv.leadership.update before leads target) (inv.awaited.update before quiet waits)

theorem Inv.append (noted : (state.writer writer).phase = .noted) (free : state.rotation = .free) :
    Inv (state.appendFor writer) := by
  have announced : state.syncRequested = true := inv.sound_of_phase noted
  have before := grows_appendRecord state
  have grows : Grows state (state.appendFor writer) := { before with }
  have phases : (state.appendFor writer).phase = update state.phase writer .checking :=
    phase_update ⟨.checking, state.walGen, state.walWritten + 1⟩ rfl
  have recorded : Recorded (state.appendFor writer)
      ⟨.checking, state.walGen, state.walWritten + 1⟩ := by
    refine ⟨le_refl _, le_of_eq inv.counted_appendRecord, announced, ?_⟩
    rintro (older | rotated)
    · exact absurd older (lt_irrefl _)
    · exact absurd (free.symm.trans rotated) nofun
  refine ⟨inv.counted_appendRecord, inv.synced_le, inv.closed_lt, inv.immWal_lt,
    inv.sound_update grows rfl recorded, ?_, ?_⟩
  · rw [phases]
    exact inv.leadership.update noted rfl rfl
  · rw [phases]
    exact inv.awaited.update noted (by decide) (nomatch ·)

/-- A look at the counters that finds the record covered. -/
theorem Inv.finish (checking : (state.writer writer).phase = .checking)
    (enough : (state.writer writer).walIndex ≤ state.walSynced) :
    Inv (state.move writer .returned) := by
  have recorded := (inv.sound writer).recorded (by rw [checking]; decide)
  refine inv.move checking ⟨recorded.withPhase, ?_⟩ rfl rfl (by decide) (nomatch ·)
  -- In an older file the record is covered whatever the counter says.
  rcases lt_or_eq_of_le recorded.file_le with older | current
  · exact recorded.older (.inl older)
  · rw [show ({ state.writer writer with phase := Phase.returned } : Writer).file =
      state.walGen from current]
    exact le_trans enough inv.synced_le

/-- A look at the counters that finds no sync running. -/
theorem Inv.lead (checking : (state.writer writer).phase = .checking)
    (stopped : state.syncing = false) : Inv (state.lead writer) := by
  have recorded := (inv.sound writer).recorded (by rw [checking]; decide)
  have leadership := inv.leadership
  rw [stopped] at leadership
  have sound : Recorded state { state.writer writer with phase := .leading } := recorded.withPhase
  have same : SameFiles state (state.lead writer) := ⟨rfl, rfl, rfl, rfl, rfl, rfl, rfl, id⟩
  exact inv.moved same rfl inv.synced_le (sound.grows same.grows) leadership.lead
    fun _ _ => .inl rfl

theorem Inv.capture (leading : (state.writer writer).phase = .leading) :
    Inv (state.capture writer) := by
  have recorded := (inv.sound writer).recorded (by rw [leading]; decide)
  have sound : Sound state
      { state.writer writer with phase := .registered state.walGen state.walWritten } := by
    refine ⟨recorded.withPhase, le_refl _, recorded.file_le, le_of_eq inv.counted, ?_⟩
    intro current
    have bound := recorded.walIndex_le
    rw [show (state.writer writer).file = state.walGen from current, ← inv.counted] at bound
    exact bound
  have same : SameFiles state (state.capture writer) := ⟨rfl, rfl, rfl, rfl, rfl, rfl, rfl, id⟩
  exact inv.moved same rfl inv.synced_le (sound.grows same.grows)
    (inv.leadership.capture leading inv.current_open)
    (inv.awaited.update leading (by decide) (nomatch ·))

/-- The sync reads a write position that includes what was captured. -/
theorem Inv.beginSync (registered : (state.writer writer).phase = .registered target covered) :
    Inv (state.move writer (.flushing target covered (state.extent target))) := by
  obtain ⟨recorded, captured⟩ := inv.sound_of_phase registered
  have opened := inv.leadership.opened writer target (by rw [State.phase, registered]; rfl)
  refine inv.move registered ⟨?_, ?_, ?_⟩ rfl rfl nofun (nomatch ·)
  · exact recorded.withPhase
  · exact captured.withPhase
  · unfold State.extent
    rw [opened]
    exact captured.covered_le

/-- A completed sync covers what was captured. -/
theorem Inv.endSync (flushing : (state.writer writer).phase = .flushing target covered upto) :
    Inv ((state.cover target upto).move writer (.flushed target covered)) := by
  have grows := grows_cover state target upto
  have covering : Inv (state.cover target upto) := by
    refine inv.surroundings grows rfl rfl rfl inv.leadership.opened inv.counted ?_ inv.closed_lt
      inv.immWal_lt
    exact le_trans inv.synced_le (grows.durable_le _ (le_refl _))
  obtain ⟨recorded, captured, _⟩ := covering.sound_of_phase flushing
  refine covering.move flushing ⟨?_, ?_, ?_⟩ rfl rfl nofun (nomatch ·)
  · exact recorded.withPhase
  · exact captured.withPhase
  · simp only [State.cover, update_self]
    omega

/-- The end of a sync: its own record is covered, and the counter may be raised. -/
theorem Inv.publish (flushed : (state.writer writer).phase = .flushed target covered) :
    Inv (state.publish writer target covered) := by
  obtain ⟨recorded, captured, safe⟩ := inv.sound_of_phase flushed
  have sound : Sound state { state.writer writer with phase := .published } := by
    refine ⟨recorded.withPhase, ?_⟩
    rcases lt_or_eq_of_le captured.file_le with older | current
    · exact recorded.older (.inl (lt_of_lt_of_le older captured.target_le))
    · have durable := safe
      rw [← current] at durable
      exact le_trans (captured.includes current) durable
  have synced_le : (state.publish writer target covered).walSynced ≤
      state.durable state.walGen := by
    dsimp only [State.publish]
    split
    · rename_i current
      exact current.1 ▸ safe
    · exact inv.synced_le
  have same : SameFiles state (state.publish writer target covered) :=
    ⟨rfl, rfl, rfl, rfl, rfl, rfl, rfl, id⟩
  refine inv.moved same rfl synced_le (sound.grows same.grows) (inv.leadership.release flushed) ?_
  intro _ _
  exact .inr ⟨writer, by rw [update_self]⟩

/-- Everybody who waits looks again. -/
theorem Inv.notifyAll (published : (state.writer writer).phase = .published) :
    Inv (state.notifyAll writer) := by
  have grows : Grows state (state.notifyAll writer) :=
    SameFiles.grows ⟨rfl, rfl, rfl, rfl, rfl, rfl, rfl, id⟩
  -- A writer stays where it is, returns, or looks again.
  have moves : ∀ other,
      (state.notifyAll writer).writer other = state.writer other ∧
        (state.writer other).phase ≠ .waiting ∨
      (state.writer other).phase = .published ∧ (state.notifyAll writer).writer other =
        { state.writer other with phase := .returned } ∨
      (state.writer other).phase = .waiting ∧ (state.notifyAll writer).writer other =
        { state.writer other with phase := .checking } := by
    intro _
    unfold State.notifyAll
    dsimp only
    split
    · rename_i same
      exact .inr (.inl ⟨same ▸ published, rfl⟩)
    split
    · rename_i waiting
      exact .inr (.inr ⟨waiting, rfl⟩)
    · rename_i others
      exact .inl ⟨rfl, others⟩
  refine ⟨inv.counted, inv.synced_le, inv.closed_lt, inv.immWal_lt, ?_,
    inv.leadership.congr ?_ ?_, ?_⟩
  · intro other
    rcases moves other with ⟨same, _⟩ | ⟨was, moved⟩ | ⟨was, moved⟩
    · rw [same]
      exact (inv.sound other).grows grows
    · rw [moved]
      obtain ⟨recorded, safe⟩ := (inv.sound_of_phase was).grows grows
      exact ⟨recorded.withPhase, safe⟩
    · rw [moved]
      have recorded : Recorded _ _ := (inv.sound_of_phase was).grows grows
      exact recorded.withPhase
  · intro other
    unfold State.phase
    rcases moves other with ⟨same, _⟩ | ⟨was, moved⟩ | ⟨was, moved⟩
    · rw [same]
    · simp [moved, was, Phase.leads]
    · simp [moved, was, Phase.leads]
  · intro other
    unfold State.phase
    rcases moves other with ⟨same, _⟩ | ⟨was, moved⟩ | ⟨was, moved⟩
    · rw [same]
    · simp [moved, was, Phase.target?]
    · simp [moved, was, Phase.target?]
  · intro other waiting
    unfold State.phase at waiting
    rcases moves other with ⟨same, others⟩ | ⟨_, moved⟩ | ⟨_, moved⟩
    · exact absurd (same ▸ waiting) others
    · simp [moved] at waiting
    · simp [moved] at waiting

theorem Inv.step {event : Event W} (taken : step state event = some later) : Inv later := by
  cases steps_of_step taken with
  | noteSyncRequest idle =>
    exact inv.moved ⟨rfl, rfl, rfl, rfl, rfl, rfl, rfl, fun _ => rfl⟩ rfl inv.synced_le rfl
      (inv.leadership.update idle rfl rfl) (inv.awaited.update idle (by decide) (nomatch ·))
  | append ready => exact inv.append ready.1 ready.2
  | appendUnsynced =>
    exact inv.surroundings (grows_appendRecord state) rfl rfl rfl inv.leadership.opened
      inv.counted_appendRecord inv.synced_le inv.closed_lt inv.immWal_lt
  | finish checking enough => exact inv.finish checking enough
  | wait checking running =>
    have recorded := (inv.sound _).recorded (by rw [checking]; decide)
    exact inv.move checking recorded.withPhase rfl rfl (by decide) fun _ => running
  | lead checking stopped => exact inv.lead checking stopped
  | wake waiting =>
    have recorded := (inv.sound _).recorded (by rw [waiting]; decide)
    exact inv.move waiting recorded.withPhase rfl rfl (by decide) (nomatch ·)
  | capture ready => exact inv.capture ready.1
  | beginSync registered => exact inv.beginSync registered
  | endSync flushing => exact inv.endSync flushing
  | publish flushed => exact inv.publish flushed
  | notifyAll published => exact inv.notifyAll published
  | lockRotation | keepWal =>
    exact inv.surroundings ⟨le_refl _, fun _ _ => le_refl _, fun _ _ => le_refl _,
      id, fun _ _ rotated => .inl (rotated.imp_right (nomatch ·))⟩
      rfl rfl rfl inv.leadership.opened inv.counted inv.synced_le inv.closed_lt inv.immWal_lt
  | syncOutgoing => exact inv.syncOutgoing
  | swapWal synced => exact inv.swapWal synced
  | closeImmWal present quiet => exact inv.closeImmWal present quiet

end

theorem inv_of_steps {events : List (Event W)} (taken : events.foldlM GroupCommit.step initial =
    some state) : Inv state := by
  have kept : ∀ (events : List (Event W)) (first : State W), Inv first →
      events.foldlM GroupCommit.step first = some state → Inv state := by
    intro events
    induction events with
    | nil =>
      intro _ inv same
      exact some.inj same ▸ inv
    | cons _ _ ih =>
      intro _ inv taken
      obtain ⟨next, one, rest⟩ := bind_eq_some_iff.mp taken
      exact ih next (inv.step one) rest
  exact kept events initial inv_initial taken

end Inv

end GroupCommit

end LightKV
