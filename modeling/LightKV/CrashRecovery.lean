import LightKV.Lifetime
import LightKV.MapRefinement

/-!
# Crash recovery

One client puts, deletes and deletes ranges, memtables are rotated, and flushes are
completed or pending. Whenever the process is killed, the next opening succeeds and every
user key reads what it read before, which is what the abstract map holds; unless a key is
in both memtables and the name of the active log sorts in front of the name of the other
one. Then the older version is replayed last and comes back.

A run is lawful if its batches are ordered, its rounds are harmless and its kills leave what the
next opening needs. Along it the answers are those of the map, and a kill loses no version.
-/

namespace LightKV

open Versions Levels Runs

namespace Database

/-- Calls of a single client without batches, rotations and flushes. -/
def FlushHistory : Event → Prop
  | .call (.batchWrite _) => False
  | .call _ => True
  | .maintain step => FlushStep step
  | .crash _ => False

instance : DecidablePred FlushHistory := by
  intro event
  unfold FlushHistory
  split <;> infer_instance

/-- Calls are made with user keys, below the largest sequence number, and their values fit the
value log. -/
def Accepted (db : Database) : Event → Prop
  | .call call => db.Accepts call
  | _ => True

instance (db : Database) : DecidablePred db.Accepted := by
  intro event
  unfold Accepted
  split <;> infer_instance

/-- The state between events: the invariants, the memtables in their logs, one version of a
key for each sequence number, and the answers of the map. -/
structure Tracks (db : Database) (store : Store) : Prop where
  operable : Operable db
  logged : Logged db
  unmixed : Unmixed db
  answers : ∀ key, UserKey key → db.get key = store.answer key

theorem tracks_fresh {options : Options} : Tracks (fresh options) Store.empty where
  operable := operable_fresh
  logged := journal_fresh.logged_iff.mpr ⟨rfl, nofun⟩
  unmixed := refines_fresh.unmixed
  answers _ user := get_fresh options user

variable {db : Database} {store : Store}

theorem Tracks.call (tracks : Tracks db store) {call : Call} (accepts : db.Accepts call)
    (single : call.ops.length ≤ 1) : Tracks (db.call call) (store.applyAll call.ops) where
  operable := tracks.operable.call accepts
  logged := tracks.operable.journaled.call.2 tracks.logged
  unmixed := tracks.unmixed.call tracks.operable.consistent single
  answers key user := by
    rw [(tracks.operable.consistent.call accepts).2 key user, tracks.answers key user,
      Store.answer_applyAll]

/-- A background step needs no more than that its round is orderly and widening. -/
theorem Tracks.maintain (tracks : Tracks db store) {step : Maintenance}
    (orderly : db.Orderly step) (widening : Widening (db.roundInputs step)) :
    Tracks (db.maintain sorter step) store := by
  have untied := tracks.operable.consistent.untiedInputs tracks.unmixed step
  obtain ⟨operable, maintains⟩ := tracks.operable.maintain ⟨orderly, untied, widening⟩ sorter
  exact
    { operable := operable
      logged := (tracks.operable.journaled.maintain tracks.operable.consistent).2
        tracks.logged
      unmixed := tracks.unmixed.maintain maintains
      answers := fun key user => (maintains.answers key user).trans (tracks.answers key user) }

theorem length_ops_le_one {call : Call} (single : ∀ ops, call ≠ .batchWrite ops) :
    call.ops.length ≤ 1 := by
  cases call with
  | put _ _ | delete _ | deleteRange _ _ => exact le_refl 1
  | batchWrite ops => exact absurd rfl (single ops)

theorem Tracks.step (tracks : Tracks db store)
    (history : FlushHistory event) (accepted : db.Accepted event) :
    Tracks (db.step sorter event) (store.applyAll event.ops) := by
  cases event with
  | call _ =>
    refine tracks.call accepted (length_ops_le_one ?_)
    rintro _ rfl
    exact history
  | maintain step =>
    have harmless : db.Harmless step := harmless_of_flushStep history
    exact tracks.maintain harmless.orderly harmless.widening
  | crash _ => exact absurd history id

theorem tracks_run (sorter : StdSort internalKeyLess) (options : Options) (events : List Event)
    (history : ∀ event ∈ events, FlushHistory event)
    (accepted : Meets (step sorter) Accepted (fresh options) events) :
    Tracks (run (step sorter) (fresh options) events) (Store.replay events) := by
  refine ((meets_of_forall history).and accepted).relates tracks_fresh ?_
  intro _ _ _ related meets
  exact related.step meets.1 meets.2

/-- The next opening reads what was read before. -/
theorem Tracks.recovers (tracks : Tracks db store) (ordered : ReplayOrdered db)
    (survived : Killed db killed) :
    ∃ again, openDatabase db.options killed = .ok again ∧ ∀ key, UserKey key →
      again.get key = db.get key ∧ again.get key = store.answer key := by
  obtain ⟨again, opened, recovered⟩ :=
    tracks.operable.recovers ⟨tracks.logged, ordered, survived⟩
  refine ⟨again, opened, fun key user => ⟨recovered.answers key user, ?_⟩⟩
  rw [recovered.answers key user, tracks.answers key user]

/-- A kill at any point of such a history, and the next opening succeeds; if the logs are
replayed in their order or share no key, every user key reads what it read before. -/
theorem recovered_answers (sorter : StdSort internalKeyLess) (options : Options)
    (events : List Event) (history : ∀ event ∈ events, FlushHistory event)
    (accepted : Meets (step sorter) Accepted (fresh options) events) (killed : Disk)
    (survived : Killed (run (step sorter) (fresh options) events) killed)
    (ordered : ReplayOrdered (run (step sorter) (fresh options) events)) :
    ∃ again, openDatabase options killed = .ok again ∧ ∀ key, UserKey key →
      again.get key = (run (step sorter) (fresh options) events).get key ∧
        again.get key = (Store.replay events).answer key := by
  have recovers := (tracks_run sorter options events history accepted).recovers ordered survived
  rwa [options_run] at recovers

/-- A key that is put into two memtables. -/
def twoLogs : List Event :=
  [.call (.put [107] [49]), .maintain .triggerFlush, .call (.put [107] [50])]

theorem killed_self (zero : db.disk.table? 0 = none) : Killed db db.disk :=
  ⟨rfl, rfl, fun _ _ found => found, zero, .refl _⟩

theorem recovered_answers_twoLogs :
    ∃ again, openDatabase eager (eagerRun twoLogs).disk = .ok again ∧
      again.get [107] = .ok [50] := by
  obtain ⟨again, opened, answers⟩ := recovered_answers insertionSorter eager twoLogs (by decide)
    (by decide +kernel) _ (killed_self rfl)
    (fun _ _ reversed => absurd reversed (by decide +kernel))
  refine ⟨again, opened, ?_⟩
  rw [(answers [107] (by decide)).2]
  decide

/-! ## Lawful runs -/

/-- Calls are accepted, background steps are harmless, and kills leave what the next opening
needs. -/
def Lawful (db : Database) : Event → Prop
  | .call call => db.Accepts call
  | .maintain step => db.Harmless step
  | .crash killed => db.Recoverable killed

/-- The invariants, and the answers of the map. -/
structure Answers (db : Database) (store : Store) : Prop where
  operable : Operable db
  answers : ∀ key, UserKey key → db.get key = store.answer key

theorem answers_fresh (options : Options) : Answers (fresh options) Store.empty :=
  ⟨operable_fresh, fun _ user => get_fresh options user⟩

/-- A lawful event does to the answers what its operations do to the map. -/
theorem Answers.step (related : Answers db store) (sorter : StdSort internalKeyLess)
    (lawful : db.Lawful event) : Answers (db.step sorter event) (store.applyAll event.ops) := by
  cases event with
  | call _ =>
    refine ⟨related.operable.call lawful, fun key user => ?_⟩
    rw [Store.answer_applyAll, ← related.answers key user]
    exact (related.operable.consistent.call lawful).2 key user
  | maintain _ =>
    obtain ⟨operable, maintains⟩ := related.operable.maintain lawful sorter
    exact ⟨operable, fun key user => (maintains.answers key user).trans (related.answers key user)⟩
  | crash _ =>
    obtain ⟨operable, recovered⟩ := related.operable.restart lawful
    exact ⟨operable, fun key user => (recovered.answers key user).trans (related.answers key user)⟩

theorem Answers.run (related : Answers db store)
    (lawful : Meets (Database.step sorter) Lawful db events) :
    Answers (Runs.run (Database.step sorter) db events)
      (Runs.run (fun store event => store.applyAll event.ops) store events) :=
  lawful.relates related fun _ _ _ related lawful => related.step sorter lawful

/-- Eight flushed puts; then a key is put into the ninth log, and again into the tenth. -/
def tenLogs : List Event :=
  (List.replicate 8 (flushedPut [97] [48])).flatten ++ twoLogs

theorem old_value_recovered :
    (∀ event ∈ tenLogs, FlushHistory event) ∧
      Meets (step insertionSorter) Accepted (fresh eager) tenLogs ∧
      (eagerRun tenLogs).get [107] = .ok [50] ∧
      (eagerRun tenLogs).disk.openedAnswer [107] = some (.ok [49]) := by
  decide +kernel

end Database

end LightKV
