import LightKV.Restart

/-!
# A database over its lifetime

The invariants of the engine together: what readers rely on, the numbers of the tables, the
manifest, the logs and the range tombstones. Calls, background steps and restarts keep
them. A background step and a restart change no answer; a restart holds the same versions.
-/

namespace LightKV

open Versions Levels Database

namespace Database

variable {db : Database}

/-- The invariants of a database in operation. -/
structure Operable (db : Database) : Prop where
  consistent : Consistent db
  numbered : Numbered db
  archived : Archived db
  journaled : Journaled db
  remembered : Remembered db

theorem operable_fresh {options : Options} : Operable (fresh options) where
  consistent := consistent_fresh options
  numbered := numbered_fresh options
  archived := archived_fresh options
  journaled := ⟨[], [], journal_fresh⟩
  remembered := ⟨nofun, nofun⟩

/-- What a background step needs to change no answer, now or behind a restart. -/
structure Harmless (db : Database) (step : Maintenance) : Prop where
  orderly : db.Orderly step
  untied : db.UntiedInputs step
  widening : Widening (db.roundInputs step)

instance (db : Database) : DecidablePred db.Harmless := fun step =>
  decidable_of_iff (db.Orderly step ∧ db.UntiedInputs step ∧ Widening (db.roundInputs step))
    ⟨fun ⟨orderly, untied, widening⟩ => ⟨orderly, untied, widening⟩,
      fun harmless => ⟨harmless.orderly, harmless.untied, harmless.widening⟩⟩

/-- A rotation or a half of a flush. -/
def FlushStep : Maintenance → Prop
  | .triggerFlush | .flushWrite | .flushRelease => True
  | _ => False

instance : DecidablePred FlushStep := by
  intro event
  unfold FlushStep
  split <;> infer_instance

/-- Flushes ask nothing of a round. -/
theorem harmless_of_flushStep {step : Maintenance} (flushes : FlushStep step) :
    db.Harmless step := by
  cases step with
  | triggerFlush | flushWrite | flushRelease => exact ⟨trivial, trivial, nofun⟩
  | level0Compaction | levelCompaction _ | compactionError _ => exact absurd flushes id

section

variable (operable : Operable db)
include operable

/-- Harmless background steps keep the invariants. -/
theorem Operable.maintain {step : Maintenance} (harmless : db.Harmless step)
    (sorter : StdSort internalKeyLess) :
    Operable (db.maintain sorter step) ∧ Maintains db (db.maintain sorter step) := by
  obtain ⟨maintains, numbered⟩ := operable.consistent.maintain operable.numbered harmless.orderly
    harmless.untied sorter
  exact ⟨⟨maintains.consistent, numbered,
    operable.archived.maintain operable.numbered harmless.orderly sorter
      maintains.consistent.tablesClaimed,
    (operable.journaled.maintain operable.consistent).1,
    operable.remembered.maintain operable.consistent operable.numbered harmless.orderly
      harmless.widening⟩, maintains⟩

theorem Operable.call {call : Call} (accepts : db.Accepts call) : Operable (db.call call) where
  consistent := (operable.consistent.call accepts).1
  numbered := operable.numbered.call
  archived := operable.archived.call call
  journaled := operable.journaled.call.1
  remembered := operable.remembered.call

/-- A number may be lost between its claim and its record. -/
theorem Operable.claim (room : db.lastSeq < 2 ^ 56) : Operable db.claim where
  consistent := (operable.consistent.claim room).1
  numbered := operable.numbered.congr rfl (le_refl _)
  archived := operable.archived.congr rfl rfl rfl (fun _ _ => rfl) (le_refl _) (Nat.le_succ _)
  journaled := by
    obtain ⟨active, waiting, journal⟩ := operable.journaled
    exact ⟨active, waiting, journal.congr rfl rfl rfl rfl rfl (Nat.le_succ _)⟩
  remembered := ⟨operable.remembered.registered, operable.remembered.flushed⟩

theorem Operable.withVLog (sound : log.1.Sound log.2) (extended : LogExtends db.disk.vlogs log.2) :
    Operable (db.withVLog log) where
  consistent := (operable.consistent.withVLog sound extended).1
  numbered := operable.numbered.congr rfl (le_refl _)
  archived := operable.archived.congr rfl rfl rfl (fun _ _ => rfl) (le_refl _) (le_refl _)
  journaled := by
    obtain ⟨active, waiting, journal⟩ := operable.journaled
    exact ⟨active, waiting, journal.congr rfl rfl rfl rfl rfl (le_refl _)⟩
  remembered := ⟨operable.remembered.registered, operable.remembered.flushed⟩

/-- The log file and the memtable get the record. -/
theorem Operable.commit (committable : Committable db record) : Operable (db.commit record) where
  consistent := operable.consistent.commit committable
  numbered := operable.numbered.congr rfl (le_refl _)
  archived := operable.archived.congr rfl rfl rfl (fun _ _ => rfl) (le_refl _) (le_refl _)
  journaled := (operable.journaled.commit committable.claimed).1
  remembered := operable.remembered.commit

/-- The counters are taken over. -/
theorem Operable.updateManifest : Operable db.updateManifest where
  consistent := { operable.consistent with }
  numbered := operable.numbered.congr rfl (le_refl _)
  archived :=
    { operable.archived with
      onDisk := .inl rfl
      numbers := operable.numbered.below
      positive := lt_of_lt_of_le operable.archived.positive operable.archived.counter
      counter := le_refl _
      older := fun level table member entry inside => lt_of_lt_of_le
        (operable.archived.older level table member entry inside) operable.archived.lastSeq
      lastSeq := le_refl _ }
  journaled := by
    obtain ⟨active, waiting, journal⟩ := operable.journaled
    exact ⟨active, waiting, journal.congr rfl rfl rfl rfl rfl (le_refl _)⟩
  remembered := ⟨operable.remembered.registered, operable.remembered.flushed⟩

/-- What a kill needs for the next opening to find everything: the memtables are in their
logs, and the logs are replayed in their order. -/
structure Recoverable (db : Database) (killed : Disk) : Prop where
  logged : Logged db
  ordered : ReplayOrdered db
  survived : Killed db killed

/-- Opening succeeds and recovers the database. -/
theorem Operable.recovers (recoverable : db.Recoverable killed) :
    ∃ again, openDatabase db.options killed = .ok again ∧ Recovered db again :=
  operable.consistent.recovers operable.numbered operable.archived operable.journaled
    operable.remembered recoverable.logged recoverable.ordered recoverable.survived

/-- A restart leads to a database that can go on. -/
theorem Operable.restart (recoverable : db.Recoverable killed) :
    Operable (db.restart killed) ∧ Recovered db (db.restart killed) := by
  obtain ⟨again, opened, recovered⟩ := operable.recovers recoverable
  have restarted : db.restart killed = again := by
    unfold Database.restart
    rw [opened]
  rw [restarted]
  exact ⟨{ recovered with }, recovered⟩

end

theorem options_step : (db.step sorter event).options = db.options := by
  cases event with
  | call made =>
    rcases db.call_cases made with ⟨same, _⟩ | ⟨record, _, _, written⟩
    · exact congrArg options same
    · exact (congrArg options written).trans rfl
  | maintain step =>
    rcases db.maintain_cases sorter step with rotated | released | only
    · refine (congrArg options rotated).trans ?_
      unfold triggerFlush
      split <;> rfl
    · refine (congrArg options released).trans ?_
      unfold flushRelease
      split <;> rfl
    · exact only.options
  | crash killed =>
    change (db.restart killed).options = db.options
    unfold restart openDatabase
    cases killed.metadata with
    | error _ => rfl
    | ok _ => rfl

/-- The options stay for the whole run. -/
theorem options_run (db : Database) :
    (Runs.run (step sorter) db events).options = db.options := by
  induction events generalizing db with
  | nil => rfl
  | cons _ _ ih => exact (ih _).trans options_step

end Database

end LightKV
