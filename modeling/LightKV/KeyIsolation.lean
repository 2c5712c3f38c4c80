import LightKV.BatchSemantics
import LightKV.ScanAgreement

/-!
# A put concerns its own key

A put is returned by `Get` and by `Scan` under its key and changes the answer for no other
key, also behind flushes, rounds and restarts. Two kinds of keys are exceptions. A key that
begins with the marker of stored range tombstones is skipped by `Scan`, and once it is in a
table the next opening loads it as a tombstone that begins behind the marker and ends at
the stored value. The empty key does not count for the range of a round on level 0.
-/

namespace LightKV

open Versions Runs Store

namespace Database

variable {db : Database} {store : Store}

/-- Beyond what a scan needs, a round drops no range tombstone that reaches further than
another one with its begin. -/
def Preserving (db : Database) (event : Event) : Prop :=
  db.Scannable event ∧ ∀ step, event = .maintain step → Widening (db.roundInputs step)

theorem Listed.lawful (listed : Listed db) (preserving : db.Preserving event) :
    db.Lawful event := by
  obtain ⟨scannable, widening⟩ := preserving
  cases event with
  | call call =>
    cases call with
    | put _ _ | delete _ | deleteRange _ _ => exact scannable.1
    | batchWrite _ => exact absurd scannable id
  | maintain step =>
    exact ⟨scannable, listed.consistent.untiedInputs listed.unmixed step, widening step rfl⟩
  | crash _ => exact scannable

/-- The invariants of both readers, and the answers of the map. -/
structure Mirrors (db : Database) (store : Store) : Prop where
  listed : Listed db
  answers : Answers db store

theorem mirrors_fresh (options : Options) : Mirrors (fresh options) Store.empty :=
  ⟨listed_fresh, answers_fresh options⟩

theorem Mirrors.step (mirrors : Mirrors db store) (sorter : StdSort internalKeyLess)
    (preserving : db.Preserving event) :
    Mirrors (db.step sorter event) (store.applyAll event.ops) :=
  ⟨mirrors.listed.step preserving.1,
    mirrors.answers.step sorter (mirrors.listed.lawful preserving)⟩

theorem Mirrors.run (mirrors : Mirrors db store)
    (preserving : Meets (Database.step sorter) Preserving db events) :
    Mirrors (Runs.run (Database.step sorter) db events)
      (Runs.run (fun store event => store.applyAll event.ops) store events) :=
  preserving.relates mirrors fun _ _ _ related meets => related.step sorter meets

/-- Where the maps of two databases agree on a key, so do their answers. -/
theorem Mirrors.get_eq (mirrors : Mirrors db store) (also : Mirrors later map)
    (unmarked : reserved key = false) (same : map.answer key = store.answer key) :
    later.get key = db.get key := by
  by_cases empty : key = []
  · rw [empty, also.listed.consistent.get_nil, mirrors.listed.consistent.get_nil]
  · rw [also.answers.answers key ⟨empty, unmarked⟩, mirrors.answers.answers key ⟨empty, unmarked⟩,
      same]

/-- A key, and then the marker itself as a key, in a table. -/
def markerKey : List Event :=
  .call (.put [0] [1]) :: flushedPut marker [122]

end Database

end LightKV
