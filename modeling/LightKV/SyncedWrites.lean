import LightKV.Archive
import LightKV.Clients
import LightKV.GroupCommit
import LightKV.Journal

/-!
# Synchronous writes

Any number of clients write, some of their calls synchronously: such a call returns when
`SyncWALTo` does. What a call inserts goes to the log of the active memtable; the steps of
the group commit decide how much of a log is synced. A sync whose `msync` or `fsync` fails
returns all the same, since `WALWriter::SyncLocked` does not look at their results.

As long as syncs succeed, the record of a call that has returned is in the synced part of the
log it was appended to, or that log is gone and tables hold versions of its keys that are at
least as new. The writes of a run are, from the newest to the oldest, those of the active
log, those of the log of the immutable memtable, and those whose log was dropped.
-/

namespace LightKV

open Versions Levels Runs List Function Option

/-! ## Steps of the group commit -/

namespace GroupCommit

/-- Steps that neither append to a file nor replace one. -/
def Event.quiet {W : Type} : Event W → Bool
  | .append _ | .appendUnsynced | .swapWal | .keepWal | .closeImmWal => false
  | _ => true

/-- The phases behind the append. -/
def Phase.appended : Phase → Bool
  | .idle | .noted => false
  | _ => true

variable {W : Type} [DecidableEq W] {state later : State W}

/-- The sync of a writer whose `msync` or `fsync` fails: it goes on as if it had succeeded. -/
def State.failSync (state : State W) (writer : W) : State W :=
  match (state.writer writer).phase with
  | .flushing target covered _ => state.move writer (.flushed target covered)
  | _ => state

/-- The same for the sync of a rotation. -/
def State.failSyncOutgoing (state : State W) : State W :=
  if state.rotation = .locked then { state with rotation := .synced } else state

/-- What a quiet step leaves as it is. -/
structure Quiet (state later : State W) : Prop where
  walGen : later.walGen = state.walGen
  walWritten : later.walWritten = state.walWritten
  immWal : later.immWal = state.immWal
  rotation : later.rotation ≠ .free → state.rotation ≠ .free ∨ state.immWal = none
  writer : ∀ writer, (later.writer writer).phase.appended = true →
    (state.writer writer).phase.appended = true ∧
      (later.writer writer).file = (state.writer writer).file ∧
      (later.writer writer).walIndex = (state.writer writer).walIndex

/-- A writer moves on. -/
theorem quiet_move (behind : phase.appended = true → (state.writer moved).phase.appended = true)
    (writers : later.writer = (state.move moved phase).writer)
    (walGen : later.walGen = state.walGen) (walWritten : later.walWritten = state.walWritten)
    (immWal : later.immWal = state.immWal) (rotation : later.rotation = state.rotation) :
    Quiet state later where
  walGen := walGen
  walWritten := walWritten
  immWal := immWal
  rotation := fun busy => .inl (rotation ▸ busy)
  writer := by
    intro writer appended
    rw [writers] at appended ⊢
    by_cases same : writer = moved
    · subst same
      simp only [State.move, update_self] at appended
      exact ⟨behind appended, by simp [State.move], by simp [State.move]⟩
    · simp only [State.move, update_of_ne same] at appended
      exact ⟨appended, by simp [State.move, same], by simp [State.move, same]⟩

omit [DecidableEq W] in
/-- No writer moves. -/
theorem Quiet.of_files (walGen : later.walGen = state.walGen)
    (walWritten : later.walWritten = state.walWritten) (immWal : later.immWal = state.immWal)
    (rotation : state.rotation ≠ .free ∨ state.immWal = none)
    (writer : later.writer = state.writer) : Quiet state later where
  walGen := walGen
  walWritten := walWritten
  immWal := immWal
  rotation := fun _ => rotation
  writer := fun _ appended => ⟨writer ▸ appended, by rw [writer], by rw [writer]⟩

theorem quiet_step (quiet : event.quiet = true) (taken : step state event = some later) :
    Quiet state later := by
  cases steps_of_step taken with
  | noteSyncRequest =>
    exact quiet_move (fun appended => absurd appended (by decide)) rfl rfl rfl rfl rfl
  | finish checking | wait checking | lead checking =>
    exact quiet_move (fun _ => by rw [checking]; rfl) rfl rfl rfl rfl rfl
  | wake waiting => exact quiet_move (fun _ => by rw [waiting]; rfl) rfl rfl rfl rfl rfl
  | capture ready => exact quiet_move (fun _ => by rw [ready.1]; rfl) rfl rfl rfl rfl rfl
  | beginSync registered => exact quiet_move (fun _ => by rw [registered]; rfl) rfl rfl rfl rfl rfl
  | endSync flushing => exact quiet_move (fun _ => by rw [flushing]; rfl) rfl rfl rfl rfl rfl
  | publish flushed => exact quiet_move (fun _ => by rw [flushed]; rfl) rfl rfl rfl rfl rfl
  | notifyAll published =>
    refine ⟨rfl, rfl, rfl, .inl, fun _ appended => ?_⟩
    dsimp only [State.notifyAll] at appended ⊢
    split
    · rename_i same
      exact ⟨by rw [same, published]; rfl, rfl, rfl⟩
    split
    · rename_i waiting
      exact ⟨by rw [waiting]; rfl, rfl, rfl⟩
    · rename_i different others
      rw [if_neg different, if_neg others] at appended
      exact ⟨appended, rfl, rfl⟩
  | lockRotation ready => exact .of_files rfl rfl rfl (.inr ready.2) rfl
  | syncOutgoing locked =>
    have busy : state.rotation ≠ .free := by rw [locked]; nofun
    unfold State.syncOutgoing
    split
    · exact .of_files rfl rfl rfl (.inl busy) rfl
    · exact .of_files rfl rfl rfl (.inl busy) rfl
  | append | appendUnsynced | swapWal | keepWal | closeImmWal => cases quiet

end GroupCommit

/-! ## The steps -/

/-- The clients, and the group commit that syncs their logs. It knows a synchronous call by its
number. -/
structure Synced where
  clients : Clients
  group : GroupCommit.State Nat

/-- Who moves. -/
inductive SyncedEvent where
  | claim
  /-- A call enters the section under the write lock; a synchronous one goes on to
  `SyncWALTo`. -/
  | write (seq : Nat) (call : Call) (sync : Bool)
  /-- A step of the group commit that leaves the files alone. -/
  | thread (event : GroupCommit.Event Nat)
  /-- The swap of a rotation. -/
  | swapWal
  | maintain (step : Maintenance)
  /-- The sync of a call fails. -/
  | failSync (seq : Nat)
  /-- The sync of a rotation fails. -/
  | failSyncOutgoing

namespace Synced

/-- The database. -/
abbrev db (state : Synced) : Database := state.clients.db

/-- Nobody has moved on an empty directory. -/
def fresh (options : Options) : Synced := ⟨.fresh options, GroupCommit.initial⟩

/-- A step of the clients together with one of the group commit, if that is possible. -/
def together (sorter : StdSort internalKeyLess) (state : Synced) (event : GroupCommit.Event Nat)
    (client : ClientEvent) : Synced :=
  match GroupCommit.step state.group event with
  | some group => ⟨state.clients.step sorter client, group⟩
  | none => state

/-- One step. A rotation swaps memtable and log together, and a flush closes the log of the
memtable it drops. -/
def step (sorter : StdSort internalKeyLess) (state : Synced) : SyncedEvent → Synced
  | .claim => { state with clients := state.clients.step sorter .claim }
  | .write seq call sync =>
      if seq ∈ state.clients.claimed ∧ call.claims = true then
        state.together sorter (if sync then .append seq else .appendUnsynced) (.write seq call)
      else state
  | .thread event =>
      if event.quiet then
        match GroupCommit.step state.group event with
        | some group => { state with group := group }
        | none => state
      else state
  | .swapWal => state.together sorter .swapWal (.maintain .triggerFlush)
  | .maintain step =>
      if step = .triggerFlush then state
      else if step = .flushRelease then
        if state.db.flushing then state.together sorter .closeImmWal (.maintain .flushRelease)
        else state
      else { state with clients := state.clients.step sorter (.maintain step) }
  | .failSync seq => { state with group := state.group.failSync seq }
  | .failSyncOutgoing => { state with group := state.group.failSyncOutgoing }

/-- Syncs succeed. Besides, numbers have 56 bits, keys are user keys, values fit the value
log, and rounds are orderly. -/
def Permitted (state : Synced) : SyncedEvent → Prop
  | .claim => state.db.lastSeq < 2 ^ 56
  | .write _ call _ => UserKeys call.ops ∧
      LogFits state.db.options call.ops state.db.vlog state.db.disk.vlogs
  | .maintain step => state.db.Orderly step ∧ state.db.UntiedInputs step
  | .failSync _ | .failSyncOutgoing => False
  | .thread _ | .swapWal => True

instance (state : Synced) : DecidablePred state.Permitted := by
  intro event
  unfold Permitted
  split <;> infer_instance

end Synced

/-! ## Where the writes are -/

/-- The records of the two logs, and the writes by the log they went to, from the newest to
the oldest. -/
structure Ledger where
  active : List WALRecord
  waiting : List WALRecord
  recent : List (Nat × List BatchOp)
  middle : List (Nat × List BatchOp)
  dropped : List (Nat × List BatchOp)

/-- A write and its record. -/
def Ledger.add (ledger : Ledger) (write : Nat × List BatchOp) (record : WALRecord) : Ledger :=
  { ledger with active := ledger.active ++ [record], recent := write :: ledger.recent }

/-- The active log becomes the waiting one. -/
def Ledger.rotate (ledger : Ledger) : Ledger :=
  { ledger with active := [], waiting := ledger.active, recent := [], middle := ledger.recent }

/-- The waiting log is dropped. -/
def Ledger.drop (ledger : Ledger) : Ledger :=
  { ledger with waiting := [], middle := [], dropped := ledger.middle ++ ledger.dropped }

namespace Database

variable {db later : Database} {made : List (Nat × List BatchOp)} {ledger : Ledger}
variable {write : Nat × List BatchOp}

/-- A record logs a write. -/
def Logs (db : Database) (write : Nat × List BatchOp) (record : WALRecord) : Prop :=
  record.seq = write.1 ∧ List.Forall₂ (Prepared db.vlog db.disk.vlogs) write.2 record.ops

theorem Logs.mono (logs : Logs db write record)
    (extended : LogExtends db.disk.vlogs later.disk.vlogs) : Logs later write record :=
  ⟨logs.1, logs.2.imp fun _ _ prepared => prepared.mono extended⟩

/-- Of every version that a write made, tables hold one that is at least as new. -/
def Stored (db : Database) (write : Nat × List BatchOp) : Prop :=
  ∀ op ∈ write.2, ∀ entry, op.point write.1 = some entry → ∃ table ∈ db.tables,
    ∃ newer ∈ table.entries, newer.key = entry.key ∧ entry.rank ≤ newer.rank

theorem Stored.congr (stored : db.Stored write) (tables : later.tables = db.tables) :
    later.Stored write := by
  unfold Stored
  rw [tables]
  exact stored

/-- How the writes of a run are on disk, and where versions and tombstones come from. -/
structure OnDisk (db : Database) (made : List (Nat × List BatchOp)) (ledger : Ledger) : Prop where
  archived : Archived db
  flushed : Flushed (fun _ => True) db
  journal : Journal db ledger.active ledger.waiting
  mem : db.mem = MemTable.new.replay ledger.active
  imm : ∀ imm, db.imm = some imm → imm = MemTable.new.replay ledger.waiting
  idle : db.imm = none → ledger.waiting = []
  made_eq : made = ledger.recent ++ (ledger.middle ++ ledger.dropped)
  recent : List.Forall₂ (Logs db) ledger.recent.reverse ledger.active
  middle : List.Forall₂ (Logs db) ledger.middle.reverse ledger.waiting
  dropped : ∀ write ∈ ledger.dropped, db.Stored write
  users : ∀ write ∈ made, UserKeys write.2
  source : ∀ entry ∈ db.points, ∃ ops, (entry.seq, ops) ∈ made ∧ ∃ op ∈ ops, ∃ form,
    Prepared db.vlog db.disk.vlogs op form ∧ form.point entry.seq = some entry
  ranges : ∀ tombstone ∈ db.rangeTombstones, ∃ ops, (tombstone.seq, ops) ∈ made ∧
    BatchOp.rangeDeletion tombstone.beginKey tombstone.endKey ∈ ops

theorem onDisk_fresh (options : Options) : OnDisk (fresh options) [] ⟨[], [], [], [], []⟩ where
  archived := archived_fresh options
  flushed := nofun
  journal := journal_fresh
  mem := rfl
  imm := nofun
  idle := fun _ => rfl
  made_eq := rfl
  recent := .nil
  middle := .nil
  dropped := nofun
  users := nofun
  source := fun entry member => by
    rw [points_fresh] at member
    exact absurd member (Set.notMem_empty entry)
  ranges := nofun

theorem OnDisk.claim (written : OnDisk db made ledger) : OnDisk db.claim made ledger :=
  { written with
    archived := written.archived.congr rfl rfl rfl (fun _ _ => rfl) (le_refl _) (Nat.le_succ _)
    journal := written.journal.congr rfl rfl rfl rfl rfl (Nat.le_succ _) }

section Enter

variable {seq : Nat} {call : Call} {log : VLogManager × List VLogFile} {record : WALRecord}

/-- A call in the section adds its record to the active log. -/
theorem OnDisk.enter (written : OnDisk db made ledger) (enters : Enters db seq call log record)
    (users : UserKeys call.ops) (claimed : seq < db.lastSeq) :
    OnDisk (db.writeCall seq call) ((seq, call.ops) :: made)
      (ledger.add (seq, call.ops) record) := by
  obtain ⟨rfl, _, extended, prepared, section_eq⟩ := enters
  have logged : LogExtends db.disk.vlogs ((db.withVLog log).commit record).disk.vlogs := extended
  have journal : Journal (db.withVLog log) ledger.active ledger.waiting :=
    written.journal.congr rfl rfl rfl rfl rfl (le_refl _)
  rw [section_eq]
  exact
    { written with
      archived := written.archived.congr rfl rfl rfl (fun _ _ => rfl) (le_refl _) (le_refl _)
      journal := journal.commit claimed
      mem := by
        rw [Ledger.add, MemTable.replay_append, ← written.mem]
        rfl
      made_eq := by rw [written.made_eq]; rfl
      recent := by
        rw [Ledger.add, reverse_cons]
        exact rel_append (written.recent.imp fun _ _ logs => logs.mono logged)
          (.cons ⟨rfl, prepared⟩ .nil)
      middle := written.middle.imp fun _ _ logs => logs.mono logged
      users := by
        intro write member
        rcases mem_cons.mp member with rfl | old
        · exact users
        · exact written.users write old
      source := by
        intro entry member
        rcases mem_points_of_commit member with new | old
        · obtain ⟨op, in_ops, form, related, point⟩ := exists_client prepared new
          rw [WALRecord.seq_of_mem_points new]
          exact ⟨call.ops, mem_cons_self, op, in_ops, form, related, point⟩
        · obtain ⟨ops, listed, op, in_ops, form, related, point⟩ := written.source entry old
          exact ⟨ops, mem_cons_of_mem _ listed, op, in_ops, form, related.mono logged, point⟩
      ranges := by
        intro tombstone member
        rcases mem_append.mp member with old | new
        · obtain ⟨ops, listed, inside⟩ := written.ranges tombstone old
          exact ⟨ops, mem_cons_of_mem _ listed, inside⟩
        · rw [WALRecord.seq_of_mem_tombstones new]
          exact ⟨call.ops, mem_cons_self, exists_rangeDeletion prepared new⟩ }

end Enter

section

variable (written : OnDisk db made ledger)
include written

theorem OnDisk.rotate (housed : Housed db)
    (free : db.imm = none) : OnDisk db.triggerFlush made ledger.rotate := by
  have rotated := rotated_triggerFlush free
  have empty : ledger.middle = [] := by
    have related := written.middle
    rw [written.idle free, forall₂_nil_right_iff, reverse_eq_nil_iff] at related
    exact related
  have logged : LogExtends db.disk.vlogs db.triggerFlush.disk.vlogs :=
    rotated.vlogs ▸ LogExtends.refl _
  exact
    { written with
      archived := by
        refine written.archived.congr rotated.levels ?_ ?_ (fun _ _ => ?_) ?_ ?_ <;>
        · unfold Database.triggerFlush
          split <;> rfl
      flushed := by
        intro running
        rw [rotated.flushing] at running
        exact absurd running (by rw [housed.idle free]; decide)
      journal := written.journal.triggerFlush free
      mem := rotated.mem
      imm := by
        intro _ swapped
        rw [rotated.imm, some.injEq] at swapped
        rw [← swapped, written.mem]
        rfl
      idle := by
        intro absent
        rw [rotated.imm] at absent
        cases absent
      made_eq := by
        rw [written.made_eq, empty]
        rfl
      recent := .nil
      middle := written.recent.imp fun _ _ logs => logs.mono logged
      dropped := fun write member => (written.dropped write member).congr rotated.tables
      source := by
        intro entry member
        rw [rotated.vlog, rotated.vlogs]
        exact written.source entry (rotated.points ▸ member)
      ranges := by
        rw [rotated.rangeTombstones]
        exact written.ranges }

/-- A record of the waiting log is one of a write, and so the other way round. -/
theorem OnDisk.exists_waiting (member : write ∈ ledger.middle) :
    ∃ record ∈ ledger.waiting, Logs db write record :=
  exists_of_forall₂ written.middle (mem_reverse.mpr member)

/-- What the waiting log holds is in tables when its memtable is published. -/
theorem OnDisk.stored_middle {imm : MemTable}
    (pending : db.imm = some imm) (running : db.flushing = true) :
    ∀ write ∈ ledger.middle, db.Stored write := by
  intro _ member _ in_ops _ point
  obtain ⟨record, listed, same, prepared⟩ := written.exists_waiting member
  rw [← same] at point
  obtain ⟨stored, inside, same_key, same_rank⟩ := exists_stored prepared in_ops point
  have node : stored ∈ imm.nodes := by
    rw [written.imm imm pending, MemTable.mem_nodes_replay]
    exact .inl (mem_flatMap.mpr ⟨record, listed, inside⟩)
  obtain ⟨table, present, newer, held, newer_key, at_least, _⟩ :=
    written.flushed running imm pending stored node trivial
  exact ⟨table, present, newer, held, newer_key.trans same_key,
    le_trans (le_of_eq same_rank.symm) at_least⟩

end

/-- Tables that match those before hold what those held. -/
theorem Stored.exchange (stored : db.Stored write)
    (exchanges : Exchanges (fun _ => True) db later) : later.Stored write := by
  intro op in_ops entry point
  obtain ⟨table, present, newer, held, newer_key, at_least⟩ := stored op in_ops entry point
  obtain ⟨other, other_present, newest, newest_held, newest_key, further, _⟩ :=
    exchanges.matched table present newer held trivial
  exact ⟨other, other_present, newest, newest_held, newest_key.trans newer_key,
    le_trans at_least further⟩

section

variable (written : OnDisk db made ledger)
include written

/-- What an exchange keeps of the origin of versions and tombstones. -/
theorem OnDisk.origin (exchanges : Exchanges (fun _ => True) db later) :
    (∀ entry ∈ later.points, ∃ ops, (entry.seq, ops) ∈ made ∧ ∃ op ∈ ops, ∃ form,
      Prepared later.vlog later.disk.vlogs op form ∧ form.point entry.seq = some entry) ∧
    ∀ tombstone ∈ later.rangeTombstones, ∃ ops, (tombstone.seq, ops) ∈ made ∧
      BatchOp.rangeDeletion tombstone.beginKey tombstone.endKey ∈ ops := by
  rw [exchanges.front.vlog, exchanges.front.vlogs, exchanges.front.rangeTombstones]
  exact ⟨fun entry member => written.source entry (exchanges.points_subset member), written.ranges⟩

/-- The second half of a flush drops the waiting log. -/
theorem OnDisk.release (housed : Housed db)
    {imm : MemTable} (pending : db.imm = some imm) (running : db.flushing = true)
    (archived : Archived db.flushRelease) : OnDisk db.flushRelease made ledger.drop := by
  have exchanges := housed.exchanges_flushRelease written.flushed
  have cleared : db.flushRelease.imm = none := by rw [Database.flushRelease, if_pos running]
  have logged : LogExtends db.disk.vlogs db.flushRelease.disk.vlogs :=
    exchanges.front.vlogs ▸ LogExtends.refl _
  obtain ⟨source, ranges⟩ := written.origin exchanges
  exact
    { written with
      archived := archived
      flushed := exchanges.flushed
      journal := written.journal.flushRelease (by rw [pending]; rfl) running
      mem := exchanges.front.mem.trans written.mem
      imm := by
        intro _ present
        rw [cleared] at present
        cases present
      idle := fun _ => rfl
      recent := written.recent.imp fun _ _ logs => logs.mono logged
      middle := .nil
      dropped := by
        intro write member
        refine Stored.exchange ?_ exchanges
        rcases mem_append.mp member with waiting | gone
        · exact written.stored_middle pending running write waiting
        · exact written.dropped write gone
      source := source
      ranges := ranges }

/-- A step that exchanges tables and leaves memtables and logs alone. -/
theorem OnDisk.exchange (only : TablesOnly db later)
    (exchanges : Exchanges (fun _ => True) db later) (archived : Archived later) :
    OnDisk later made ledger := by
  have logged : LogExtends db.disk.vlogs later.disk.vlogs := only.vlogs ▸ LogExtends.refl _
  obtain ⟨source, ranges⟩ := written.origin exchanges
  exact
    { written with
      archived := archived
      flushed := exchanges.flushed
      journal := written.journal.congr only.wals only.walPath only.immWalPath only.imm
        only.nextWalId (le_of_eq only.lastSeq.symm)
      mem := only.mem.trans written.mem
      imm := fun imm present => written.imm imm (only.imm ▸ present)
      idle := fun absent => written.idle (only.imm ▸ absent)
      recent := written.recent.imp fun _ _ logs => logs.mono logged
      middle := written.middle.imp fun _ _ logs => logs.mono logged
      dropped := fun write member => (written.dropped write member).exchange exchanges
      source := source
      ranges := ranges }

end

end Database

/-! ## Where the synchronous calls are -/

/-- The record with a number in a log, as `wal_written_` counts them. -/
def RecordAt (log : List WALRecord) (walIndex seq : Nat) : Prop :=
  ∃ index record, walIndex = index + 1 ∧ log[index]? = some record ∧ record.seq = seq

theorem RecordAt.append (at_index : RecordAt log walIndex seq) (more : List WALRecord) :
    RecordAt (log ++ more) walIndex seq := by
  obtain ⟨index, record, index_eq, found, same⟩ := at_index
  refine ⟨index, record, index_eq, ?_, same⟩
  rw [getElem?_append_left (List.getElem?_eq_some_iff.mp found).1]
  exact found

/-- Where the record of a synchronous call is. -/
def Located (group : GroupCommit.State Nat) (ledger : Ledger) (seq : Nat) : Prop :=
  (group.writer seq).file = group.walGen ∧
      RecordAt ledger.active (group.writer seq).walIndex seq ∨
    group.immWal = some (group.writer seq).file ∧
      RecordAt ledger.waiting (group.writer seq).walIndex seq ∨
    seq ∈ ledger.dropped.map Prod.fst

/-- The group commit follows the logs. -/
structure Tracked (group : GroupCommit.State Nat) (ledger : Ledger) : Prop where
  inv : GroupCommit.Inv group
  counted : group.walWritten = ledger.active.length
  idle : group.rotation ≠ .free → group.immWal = none
  located : ∀ seq, (group.writer seq).phase.appended = true → Located group ledger seq

section Tracked

open GroupCommit

variable {group later : GroupCommit.State Nat} {ledger : Ledger}

theorem tracked_initial : Tracked initial ⟨[], [], [], [], []⟩ where
  inv := inv_initial
  counted := rfl
  idle := fun busy => absurd rfl busy
  located := nofun

theorem Tracked.quiet (tracked : Tracked group ledger) (quiet : event.quiet = true)
    (taken : step group event = some later) : Tracked later ledger := by
  have same := quiet_step quiet taken
  refine ⟨tracked.inv.step taken, same.walWritten.trans tracked.counted, ?_, ?_⟩
  · intro busy
    rw [same.immWal]
    rcases same.rotation busy with before | none
    · exact tracked.idle before
    · exact none
  intro seq appended
  obtain ⟨before, file, walIndex⟩ := same.writer seq appended
  have located := tracked.located seq before
  unfold Located at located ⊢
  rw [same.walGen, same.immWal, file, walIndex]
  exact located

/-- A record behind the others moves none of them. -/
theorem Located.add (located : Located group ledger seq) (write : Nat × List BatchOp)
    (record : WALRecord) (walGen : later.walGen = group.walGen)
    (immWal : later.immWal = group.immWal) (writer : later.writer seq = group.writer seq) :
    Located later (ledger.add write record) seq := by
  unfold Located at located ⊢
  rw [walGen, immWal, writer]
  exact located.imp_left fun ⟨file, at_index⟩ => ⟨file, at_index.append [record]⟩

/-- An append, of a synchronous call or another one. -/
theorem Tracked.append (tracked : Tracked group ledger) {seq : Nat} {sync : Bool}
    (taken : step group (if sync then .append seq else .appendUnsynced) = some later)
    (ops : List BatchOp) (seq_eq : record.seq = seq) :
    Tracked later (ledger.add (seq, ops) record) ∧ later.immWal = group.immWal := by
  have inv := tracked.inv.step taken
  have counted : group.walWritten + 1 = (ledger.add (seq, ops) record).active.length := by
    simp [Ledger.add, tracked.counted]
  cases sync with
  | false =>
    cases steps_of_step taken with
    | appendUnsynced =>
      refine ⟨⟨inv, counted, tracked.idle, fun other appended => ?_⟩, rfl⟩
      exact (tracked.located other appended).add _ _ rfl rfl rfl
  | true =>
    cases steps_of_step taken with
    | append =>
      refine ⟨⟨inv, counted, tracked.idle, fun other appended => ?_⟩, rfl⟩
      by_cases own : other = seq
      · subst own
        refine .inl ⟨?_, ledger.active.length, record, ?_, ?_, seq_eq⟩
        · simp [State.appendFor, State.appendRecord]
        · simp [State.appendFor, tracked.counted]
        · simp [Ledger.add]
      have unmoved : (group.appendFor seq).writer other = group.writer other :=
        update_of_ne own _ _
      rw [unmoved] at appended
      exact (tracked.located other appended).add _ _ rfl rfl unmoved

/-- The swap of a rotation. -/
theorem Tracked.swapWal (tracked : Tracked group ledger)
    (taken : step group .swapWal = some later) :
    Tracked later ledger.rotate ∧ group.immWal = none ∧ later.immWal.isSome = true := by
  have inv := tracked.inv.step taken
  obtain ⟨⟩ := steps_of_step taken
  have none := tracked.idle (by rw [‹group.rotation = .synced›]; nofun)
  refine ⟨⟨inv, rfl, fun busy => absurd rfl busy, fun seq appended => ?_⟩, none, rfl⟩
  rcases tracked.located seq appended with ⟨file, at_index⟩ | ⟨impossible, _⟩ | gone
  · exact .inr (.inl ⟨congrArg some file.symm, at_index⟩)
  · rw [none] at impossible
    cases impossible
  · exact .inr (.inr gone)

/-- The log of a flushed memtable is closed and dropped. -/
theorem Tracked.closeImmWal (tracked : Tracked group ledger)
    (taken : step group .closeImmWal = some later)
    (listed : ∀ record ∈ ledger.waiting, record.seq ∈ ledger.middle.map Prod.fst) :
    Tracked later ledger.drop ∧ later.immWal = none := by
  have inv := tracked.inv.step taken
  obtain ⟨⟩ := steps_of_step taken
  refine ⟨⟨inv, tracked.counted, fun _ => rfl, fun seq appended => ?_⟩, rfl⟩
  unfold Located
  rw [Ledger.drop, map_append, mem_append]
  rcases tracked.located seq appended with active | ⟨_, _, record, _, found, same⟩ | gone
  · exact .inl active
  · exact .inr (.inr (.inl (same ▸ listed record (mem_of_getElem? found))))
  · exact .inr (.inr (.inr gone))

end Tracked

/-! ## Runs -/

namespace Synced

open Database

variable {state : Synced} {sorter : StdSort internalKeyLess}

/-- What holds between the steps. -/
structure Follows (state : Synced) (ledger : Ledger) : Prop where
  sound : state.clients.Sound
  written : state.db.OnDisk state.clients.made ledger
  tracked : Tracked state.group ledger
  pending : state.group.immWal.isSome = state.db.imm.isSome

theorem follows_fresh (options : Options) : Follows (fresh options) ⟨[], [], [], [], []⟩ where
  sound := Clients.sound_fresh
  written := onDisk_fresh options
  tracked := tracked_initial
  pending := rfl

variable {ledger : Ledger}

section

variable (follows : Follows state ledger) {group : GroupCommit.State Nat}
include follows

theorem Follows.write {seq : Nat} {call : Call}
    (permitted : state.Permitted (.write seq call sync)) (member : seq ∈ state.clients.claimed)
    (taken : GroupCommit.step state.group (if sync then .append seq else .appendUnsynced) = some
      group) :
    ∃ later, Follows ⟨⟨state.db.writeCall seq call, state.clients.claimed.erase seq,
      (seq, call.ops) :: state.clients.made⟩, group⟩ later := by
  obtain ⟨users, fits⟩ := permitted
  obtain ⟨_, record, enters⟩ := exists_enters follows.sound.housed.sound fits
  have same_imm : (state.db.writeCall seq call).imm = state.db.imm := by
    rw [enters.written]
    rfl
  obtain ⟨tracked, same_wal⟩ := follows.tracked.append taken call.ops enters.seq_eq
  refine ⟨ledger.add (seq, call.ops) record, follows.sound.write enters users member,
    follows.written.enter enters users (follows.sound.pending seq member).1, tracked, ?_⟩
  rw [same_imm, ← follows.pending, same_wal]

/-- A rotation. -/
theorem Follows.rotate (taken : GroupCommit.step state.group .swapWal = some group) :
    Follows ⟨state.clients.step sorter (.maintain .triggerFlush), group⟩ ledger.rotate := by
  obtain ⟨tracked, none, swapped⟩ := follows.tracked.swapWal taken
  have free : state.db.imm = Option.none := by simpa [none] using follows.pending.symm
  have rotated := rotated_triggerFlush free
  refine ⟨follows.sound.maintain sorter trivial trivial,
    follows.written.rotate follows.sound.housed free, tracked, ?_⟩
  change group.immWal.isSome = state.db.triggerFlush.imm.isSome
  rw [swapped, rotated.imm]
  rfl

/-- The second half of a flush. -/
theorem Follows.release (running : state.db.flushing = true)
    (taken : GroupCommit.step state.group .closeImmWal = some group) :
    Follows ⟨state.clients.step sorter (.maintain .flushRelease), group⟩ ledger.drop := by
  have orderly : state.db.Orderly .flushRelease := trivial
  have untied : state.db.UntiedInputs .flushRelease := trivial
  have sound := follows.sound.maintain sorter orderly untied
  obtain ⟨_, pending⟩ := ne_none_iff_exists'.mp fun absent =>
    nomatch (follows.sound.housed.idle absent).symm.trans running
  have archived : Archived (state.db.maintain sorter .flushRelease) :=
    follows.written.archived.maintain follows.sound.numbered orderly sorter
      sound.housed.tablesClaimed
  have listed : ∀ record ∈ ledger.waiting, record.seq ∈ ledger.middle.map Prod.fst := by
    intro _ member
    obtain ⟨write, inside, same, _⟩ := exists_of_forall₂ follows.written.middle.flip member
    exact mem_map.mpr ⟨write, mem_reverse.mp inside, same.symm⟩
  obtain ⟨tracked, none⟩ := follows.tracked.closeImmWal taken listed
  refine ⟨sound, follows.written.release follows.sound.housed pending running archived, tracked, ?_⟩
  change group.immWal.isSome = state.db.flushRelease.imm.isSome
  rw [none, Database.flushRelease, if_pos running]
  rfl

/-- A round, the first half of a flush, or a failed round. -/
theorem Follows.maintain {step : Maintenance} (permitted : state.Permitted (.maintain step))
    (no_rotation : step ≠ .triggerFlush) (no_release : step ≠ .flushRelease) :
    Follows { state with clients := state.clients.step sorter (.maintain step) } ledger := by
  obtain ⟨orderly, untied⟩ := permitted
  have housed := follows.sound.housed
  have sound := follows.sound.maintain sorter orderly untied
  have only := tablesOnly_maintain state.db sorter no_rotation no_release
  have exchanges : Exchanges (fun _ => True) state.db (state.db.maintain sorter step) := by
    rcases housed.turn follows.written.flushed (turn_maintain follows.sound.numbered orderly sorter)
      (untied_roundInputs untied) (fun _ _ _ _ _ _ => trivial) with exchanges | ⟨rotation, _⟩
    · exact exchanges
    · exact absurd rotation no_rotation
  have archived := follows.written.archived.maintain follows.sound.numbered orderly sorter
    sound.housed.tablesClaimed
  refine ⟨sound, follows.written.exchange only exchanges archived, follows.tracked, ?_⟩
  change state.group.immWal.isSome = (state.db.maintain sorter step).imm.isSome
  rw [only.imm]
  exact follows.pending

theorem Follows.step (sorter : StdSort internalKeyLess) (permitted : state.Permitted event) :
    ∃ later, Follows (state.step sorter event) later := by
  cases event with
  | claim =>
    exact ⟨ledger, follows.sound.claim permitted sorter, follows.written.claim, follows.tracked,
      follows.pending⟩
  | write _ _ _ =>
    simp only [Synced.step]
    split
    · rename_i entering
      unfold together
      split
      · rename_i taken
        have after := follows.write permitted entering.1 taken
        rwa [Clients.step, if_pos entering]
      · exact ⟨ledger, follows⟩
    · exact ⟨ledger, follows⟩
  | thread _ =>
    simp only [Synced.step]
    split
    · rename_i quiet
      split
      · rename_i taken
        refine ⟨ledger, follows.sound, follows.written, follows.tracked.quiet quiet taken, ?_⟩
        exact (congrArg isSome (GroupCommit.quiet_step quiet taken).immWal).trans follows.pending
      · exact ⟨ledger, follows⟩
    · exact ⟨ledger, follows⟩
  | swapWal =>
    simp only [Synced.step, together]
    split
    · rename_i taken
      exact ⟨ledger.rotate, follows.rotate taken⟩
    · exact ⟨ledger, follows⟩
  | maintain _ =>
    simp only [Synced.step]
    split
    · exact ⟨ledger, follows⟩
    rename_i no_rotation
    split
    · split
      · rename_i running
        unfold together
        split
        · rename_i taken
          exact ⟨ledger.drop, follows.release running taken⟩
        · exact ⟨ledger, follows⟩
      · exact ⟨ledger, follows⟩
    · rename_i no_release
      exact ⟨ledger, follows.maintain permitted no_rotation no_release⟩
  | failSync _ => exact permitted.elim
  | failSyncOutgoing => exact permitted.elim

end

/-- Along every run in which syncs succeed, the logs and the group commit stay together. -/
theorem exists_follows (sorter : StdSort internalKeyLess) (options : Options)
    (permitted : Meets (Synced.step sorter) Permitted (fresh options) events) :
    ∃ ledger, Follows (run (Synced.step sorter) (fresh options) events) ledger := by
  have kept : ∀ state event, (∃ ledger, Follows state ledger) → state.Permitted event →
      ∃ ledger, Follows (state.step sorter event) ledger :=
    fun _ _ ⟨_, follows⟩ allowed => follows.step sorter allowed
  exact permitted.invariant ⟨_, follows_fresh options⟩ kept

end Synced

end LightKV
