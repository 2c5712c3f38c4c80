import LightKV.CrashRecovery

/-!
# Range deletions behind a reopening

A range deletion lives in the list in memory and, once its memtable is flushed, in a table.
When everything is flushed, rounds have run and the database is opened again, only the
tables are left to tell which keys are deleted. A key reads what the abstract map holds, as
long as no round merges two tombstones with one begin key of which the older ends later:
the merge keeps the newer one only.
-/

namespace LightKV

open Versions Levels Runs

namespace Database

/-- Calls of a single client without batches, and background work. -/
def SingleHistory : Event → Prop
  | .call (.batchWrite _) => False
  | .call _ => True
  | .maintain _ => True
  | .crash _ => False

instance : DecidablePred SingleHistory := by
  rintro (call | _ | _)
  on_goal 1 => cases call
  all_goals unfold SingleHistory; infer_instance

/-- Rounds are orderly and never drop the wider of two tombstones with one begin key. -/
def RoundsKeepRanges (db : Database) : Event → Prop
  | .maintain step => db.Orderly step ∧ Widening (db.roundInputs step)
  | _ => True

instance (db : Database) : DecidablePred db.RoundsKeepRanges := by
  intro event
  induction event using Event.casesOn <;> unfold RoundsKeepRanges <;> infer_instance

/-- Nothing is left in the memtables. -/
def AllFlushed (db : Database) : Prop :=
  db.mem.hasContent = false ∧ db.imm = none

theorem tracks_singleHistory {options : Options} (history : ∀ event ∈ events, SingleHistory event)
    (accepted : Meets (step sorter) Accepted (fresh options) events)
    (kept : Meets (step sorter) RoundsKeepRanges (fresh options) events) :
    Tracks (run (step sorter) (fresh options) events) (Store.replay events) := by
  refine (((meets_of_forall history).and accepted).and kept).relates tracks_fresh ?_
  rintro _ _ event related ⟨⟨single, accepts⟩, keeps⟩
  cases event with
  | call _ =>
    refine related.call accepts (length_ops_le_one ?_)
    rintro _ rfl
    exact single
  | maintain _ => exact related.maintain keeps.1 keeps.2
  | crash _ => exact absurd single id

theorem Tracks.updateManifest (tracks : Tracks db store) : Tracks db.updateManifest store :=
  ⟨tracks.operable.updateManifest, tracks.logged, tracks.unmixed, tracks.answers⟩

/-- A narrow range deletion, a wider one with the same begin, and a put behind both; all of it
is flushed and merged. -/
def widenedRange : List Event :=
  [.call (.put [109] [1]), .call (.put [110] [2]), .call (.deleteRange [97] [98])] ++
    rotateAndFlush ++
    [.call (.deleteRange [97] [122]), .call (.put [110] [3])] ++ rotateAndFlush ++
    [.maintain .level0Compaction]

/-- A put and a range deletion over it, then a shorter one with the same begin; both are
flushed into one table, and a round drops the first. -/
def narrowedRange : List Event :=
  [.call (.put [109] [1]), .call (.deleteRange [97] [122]), .call (.deleteRange [97] [98])] ++
    rotateAndFlush ++ [.maintain .level0Compaction]

end Database

end LightKV
