import LightKV.Clients
import LightKV.Lifetime
import LightKV.MapRefinement

/-!
# Concurrent writers

A writer takes its sequence number with an atomic counter, and later enters the section
under the write lock, where it appends its record and inserts it into the memtable. Between
the two, other writers may overtake it. The memtable answers with the version inserted last,
tables answer with the highest sequence number. If every writer of a key enters in the order
of the numbers, both are the same version, and no rotation, flush, round or restart changes
an answer. If a writer is overtaken on its own key, the answer changes with the flush.
-/

namespace LightKV

open Versions Levels Runs List

/-- A call that a writer makes. -/
inductive Write where
  | put (key value : Bytes)
  | delete (key : Bytes)
  deriving DecidableEq, Repr

/-- The key of a call. -/
def Write.key : Write → Bytes
  | .put key _ => key
  | .delete key => key

/-- The operation of a call. -/
def Write.op : Write → BatchOp
  | .put key value => .value key value
  | .delete key => .deletion key

/-- The call as clients make it. -/
def Write.call : Write → Call
  | .put key value => .put key value
  | .delete key => .delete key

theorem Write.ops_call (write : Write) : write.call.ops = [write.op] := by
  cases write <;> rfl

/-- The call of one key that a client makes. -/
def Call.write? : Call → Option Write
  | .put key value => some (.put key value)
  | .delete key => some (.delete key)
  | .deleteRange _ _ | .batchWrite _ => none

theorem Call.eq_of_write? {call : Call} (found : call.write? = some write) : write.call = call := by
  cases call <;> cases found <;> rfl

/-- A call makes one point, of its key. -/
theorem Write.exists_point (call : Write) (seq : Nat) :
    ∃ entry, call.op.point seq = some entry ∧ entry.key = call.key := by
  cases call with
  | put key value => exact ⟨⟨key, seq, .value, value⟩, rfl, rfl⟩
  | delete key => exact ⟨⟨key, seq, .deletion, []⟩, rfl, rfl⟩

namespace Database

/-- All versions of the memtables and the tables. -/
def allVersions (db : Database) : List Entry :=
  db.mem.nodes ++ (db.imm.map MemTable.nodes).getD [] ++ versionsOf db.tables

theorem mem_allVersions_of_points {db : Database} (member : entry ∈ db.points) :
    entry ∈ db.allVersions := by
  unfold allVersions
  rw [mem_append, mem_append]
  obtain ⟨_, _, rfl | ⟨_, pending, rfl⟩ | ⟨table, present, rfl⟩, inside⟩ := member
  · exact .inl (.inl inside)
  · refine .inl (.inr ?_)
    rw [pending]
    exact inside
  · exact .inr (mem_versionsOf.mpr ⟨table, present, inside⟩)

end Database

namespace Clients

/-- A writer enters before any writer of its key with a higher number has entered. Keys are
user keys, numbers have 56 bits, values fit the value log, and rounds are orderly. -/
def InTurn (state : Clients) : ClientEvent → Prop
  | .claim => state.db.lastSeq < 2 ^ 56
  | .write seq call => ∃ write ∈ call.write?, UserKey write.key ∧
      LogFits state.db.options [write.op] state.db.vlog state.db.disk.vlogs ∧
      ∀ entry ∈ state.db.allVersions, entry.key = write.key → entry.seq < seq
  | .maintain step => state.db.Orderly step

instance (state : Clients) : DecidablePred state.InTurn := by
  intro event
  unfold InTurn
  split <;> infer_instance

/-- What holds between the events of writers. -/
structure Steady (state : Clients) : Prop where
  operable : state.db.Operable
  unmixed : state.db.Unmixed
  pointsOnly : state.db.rangeTombstones = []
  claimed : ∀ seq ∈ state.claimed, seq < state.db.lastSeq

theorem steady_fresh : Steady (fresh options) where
  operable := Database.operable_fresh
  unmixed := Database.refines_fresh.unmixed
  pointsOnly := rfl
  claimed := nofun

end Clients

namespace Database

variable {db : Database}

/-- What a writer of a user key does in the section. -/
structure Entering (db : Database) (seq : Nat) (call : Write)
    (log : VLogManager × List VLogFile) (record : WALRecord) : Prop
    extends Enters db seq call.call log record where
  user : UserKeys [call.op]

theorem exists_entering (sound : db.vlog.Sound db.disk.vlogs) (seq : Nat) {call : Write}
    (user : UserKey call.key) (fits : LogFits db.options [call.op] db.vlog db.disk.vlogs) :
    ∃ log record, Entering db seq call log record := by
  rw [← call.ops_call] at fits
  obtain ⟨log, record, enters⟩ := @exists_enters seq db sound call.call fits
  refine ⟨log, record, enters, ?_⟩
  intro _ in_ops number _ point
  rw [mem_singleton.mp in_ops] at point
  obtain ⟨_, own_point, own_key⟩ := Write.exists_point call number
  rw [own_point, Option.some.injEq] at point
  exact point ▸ own_key ▸ user

section Entering

variable {seq : Nat} {call : Write} {log : VLogManager × List VLogFile} {record : WALRecord}
  (entering : Entering db seq call log record)
include entering

theorem Entering.prepared_op :
    List.Forall₂ (Prepared (db.withVLog log).vlog (db.withVLog log).disk.vlogs) [call.op]
      record.ops :=
  call.ops_call ▸ entering.prepared

theorem Entering.key_of_mem (member : entry ∈ record.points) : entry.key = call.key := by
  obtain ⟨_, inside, point⟩ := mem_filterMap.mp member
  obtain ⟨_, in_ops, related⟩ := Prepared.exists_op entering.prepared_op inside
  rw [mem_singleton.mp in_ops] at related
  obtain ⟨_, client_point, same_key⟩ := related.exists_client_point point
  obtain ⟨_, own_point, own_key⟩ := Write.exists_point call record.seq
  rw [own_point, Option.some.injEq] at client_point
  rw [← same_key, ← client_point, own_key]

theorem Entering.tombstones : record.tombstones = [] := by
  rw [eq_nil_iff_forall_not_mem]
  intro _ member
  obtain ⟨_, inside, made⟩ := mem_filterMap.mp member
  obtain ⟨_, in_ops, related⟩ := Prepared.exists_op entering.prepared_op inside
  rw [mem_singleton.mp in_ops] at related
  cases call with
  | put _ _ | delete _ => cases related; simp [BatchOp.tombstone] at made

theorem Entering.rangeTombstones :
    (db.writeCall seq call.call).rangeTombstones = db.rangeTombstones := by
  rw [entering.written]
  change db.rangeTombstones ++ record.tombstones = db.rangeTombstones
  rw [entering.tombstones, append_nil]

theorem Entering.lastSeq : (db.writeCall seq call.call).lastSeq = db.lastSeq := by
  rw [entering.written]
  rfl

variable (above : ∀ entry ∈ db.points, entry.key = call.key → entry.seq < seq)
include above

/-- A record whose key has only older versions can be committed behind its place in the
order of claims. -/
theorem Entering.committable (claimed : seq < db.lastSeq) :
    Committable (db.withVLog log) record := by
  refine committable_of_prepared entering.prepared_op (entering.seq_eq ▸ claimed) ?_ entering.user
    (ordered_singleton _)
  intro _ member other known same
  rw [entering.seq_eq]
  exact above other known (same.trans (entering.key_of_mem member))

theorem Entering.unmixed (unmixed : Unmixed db) : Unmixed (db.writeCall seq call.call) := by
  rw [entering.written]
  apply unmixed.commit
  · intro _ member other known same
    rw [entering.seq_eq]
    exact above other known (same.trans (entering.key_of_mem member))
  · rw [← entering.prepared_op.length_eq]
    exact le_refl 1

/-- A writer that enters in its turn keeps what the database relies on. -/
theorem Operable.enters (operable : Operable db) (claimed : seq < db.lastSeq) :
    Operable (db.writeCall seq call.call) := by
  rw [entering.written]
  exact (operable.withVLog entering.sound entering.extended).commit
    (entering.committable above claimed)

end Entering

theorem Consistent.widening_of_pointsOnly (consistent : Consistent db)
    (pointsOnly : db.rangeTombstones = []) {step : Maintenance} :
    Widening (db.roundInputs step) := by
  intro entry member _ _ reserved_key
  obtain ⟨table, input, inside⟩ := mem_versionsOf.mp member
  rcases consistent.stored table (mem_tables_of_roundInputs input) entry inside with
    user | ⟨_, registered, _⟩
  · rw [user.2] at reserved_key
    cases reserved_key
  · rw [pointsOnly] at registered
    cases registered

end Database

namespace Clients

variable {state : Clients}

theorem Steady.step (steady : Steady state)
    {event : ClientEvent} (inTurn : state.InTurn event) : Steady (state.step sorter event) := by
  cases event with
  | claim =>
    refine ⟨steady.operable.claim inTurn, steady.unmixed, steady.pointsOnly, ?_⟩
    intro seq member
    rcases mem_cons.mp member with rfl | old
    · exact Nat.lt_succ_self _
    · exact Nat.lt_succ_of_lt (steady.claimed seq old)
  | write seq call =>
    obtain ⟨write, is_write, user, fits, above⟩ := inTurn
    obtain rfl := Call.eq_of_write? is_write
    simp only [Clients.step]
    split
    · rename_i allowed
      have member := allowed.1
      obtain ⟨_, _, entering⟩ :=
        Database.exists_entering steady.operable.consistent.sound seq user fits
      have newest : ∀ entry ∈ state.db.points, entry.key = write.key → entry.seq < seq :=
        fun entry known => above entry (Database.mem_allVersions_of_points known)
      refine ⟨steady.operable.enters entering newest (steady.claimed seq member),
        entering.unmixed newest steady.unmixed,
        entering.rangeTombstones.trans steady.pointsOnly, ?_⟩
      intro other still
      exact entering.lastSeq.symm ▸ steady.claimed other (mem_of_mem_erase still)
    · exact steady
  | maintain step =>
    have consistent := steady.operable.consistent
    obtain ⟨operable, maintains⟩ := steady.operable.maintain ⟨inTurn,
      consistent.untiedInputs steady.unmixed step,
      consistent.widening_of_pointsOnly steady.pointsOnly⟩ sorter
    refine ⟨operable, steady.unmixed.maintain maintains,
      maintains.rangeTombstones.trans steady.pointsOnly, ?_⟩
    intro seq member
    exact maintains.lastSeq.symm ▸ steady.claimed seq member

theorem steady_run
    (inTurn : Meets (step sorter) InTurn (fresh options) events) :
    Steady (run (step sorter) (fresh options) events) :=
  inTurn.invariant steady_fresh fun _ _ steady meets => steady.step meets

end Clients

namespace Database

/-- Background work and kills with everything in the logs, in an order that the replay keeps;
rounds are orderly. -/
def Undisturbed (db : Database) : Event → Prop
  | .maintain step => db.Orderly step
  | .crash killed => db.Recoverable killed
  | .call _ => False

variable {db : Database}

/-- What holds once the writers are done: one version of a key for each number, and no range
deletion. -/
structure Written (db : Database) : Prop where
  operable : Operable db
  unmixed : Unmixed db
  pointsOnly : db.rangeTombstones = []

theorem Written.step (written : Written db) (sorter : StdSort internalKeyLess)
    (undisturbed : db.Undisturbed event) :
    Written (db.step sorter event) ∧
      ∀ key, UserKey key → (db.step sorter event).get key = db.get key := by
  cases event with
  | call _ => exact absurd undisturbed id
  | maintain step =>
    have consistent := written.operable.consistent
    obtain ⟨later, maintains⟩ := written.operable.maintain ⟨undisturbed,
      consistent.untiedInputs written.unmixed step,
      consistent.widening_of_pointsOnly written.pointsOnly⟩ sorter
    exact ⟨⟨later, written.unmixed.maintain maintains,
      maintains.rangeTombstones.trans written.pointsOnly⟩, maintains.answers⟩
  | crash killed =>
    obtain ⟨later, recovered⟩ := written.operable.restart undisturbed
    refine ⟨⟨later, ?_, ?_⟩, recovered.answers⟩
    · intro first in_first second in_second
      change first ∈ (db.restart killed).points at in_first
      change second ∈ (db.restart killed).points at in_second
      rw [recovered.points] at in_first in_second
      exact written.unmixed first in_first second in_second
    · exact subset_nil.mp (written.pointsOnly ▸ recovered.tombstones)

theorem Written.run (written : Written db)
    (undisturbed : Meets (Database.step sorter) Undisturbed db events) (user : UserKey key) :
    (Runs.run (Database.step sorter) db events).get key = db.get key := by
  induction events generalizing db with
  | nil => rfl
  | cons _ _ ih =>
    obtain ⟨later, same⟩ := written.step sorter undisturbed.1
    exact (ih later undisturbed.2).trans (same key user)

end Database

namespace Clients

/-- Two writers of one key; the first one to claim is the first one to enter. -/
def inOrder : List ClientEvent :=
  [.claim, .claim, .write 0 (.put [107] [97]), .write 1 (.put [107] [98])]

/-- The same writers; the second one overtakes the first. -/
def overtaken : List ClientEvent :=
  [.claim, .claim, .write 1 (.put [107] [98]), .write 0 (.put [107] [97])]

end Clients

end LightKV
