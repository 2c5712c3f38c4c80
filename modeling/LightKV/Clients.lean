import LightKV.Operation

/-!
# Clients

Any number of clients put, delete, delete ranges and write batches. A client claims a number,
and later it enters the section under the write lock, in whatever order. Meanwhile the
background thread rotates, flushes and compacts.

The order of entry decides what readers of a memtable find first, but memtables, tables and
the value log keep their form whatever it is.
-/

namespace LightKV

open Versions Levels Runs List Database

/-! ## Calls with claimed numbers -/

/-- Calls that claim a number: the others return before. -/
def Call.claims : Call → Bool
  | .deleteRange beginKey endKey => decide (beginKey < endKey)
  | .batchWrite ops => !ops.isEmpty
  | _ => true

namespace Database

/-- The section of a call under the write lock, with the number it claimed before. -/
def writeCall (db : Database) (seq : Nat) : Call → Database
  | .put key value => db.writeImpl seq key value
  | .delete key => db.commit (.deletion seq key)
  | .deleteRange beginKey endKey => db.commit (.rangeDeletion seq beginKey endKey)
  | .batchWrite ops =>
      let prepared := prepareOps db.options ops db.vlog db.disk.vlogs
      (db.withVLog prepared.2).commit (.batch seq prepared.1)

theorem call_eq_writeCall (db : Database) {call : Call} (claims : call.claims = true) :
    db.call call = db.claim.writeCall db.lastSeq call := by
  cases call with
  | put _ _ => rfl
  | delete _ => rfl
  | deleteRange _ _ =>
    rw [Call.claims, decide_eq_true_eq] at claims
    rw [call, deleteRange, if_pos claims]
    rfl
  | batchWrite _ =>
    rw [Call.claims, Bool.not_eq_true'] at claims
    rw [call, batchWrite, claims]
    rfl

theorem writeCall_eq (db : Database) {seq : Nat} {call : Call} :
    ∃ record : WALRecord, record.seq = seq ∧
      record.ops = (prepareOps db.options call.ops db.vlog db.disk.vlogs).1 ∧
      db.writeCall seq call =
        (db.withVLog (prepareOps db.options call.ops db.vlog db.disk.vlogs).2).commit record := by
  cases call with
  | put key value =>
    exact ⟨.value seq key (db.vlog.storeValue db.disk.vlogs db.options value).1, rfl, rfl, rfl⟩
  | delete key => exact ⟨.deletion seq key, rfl, rfl, rfl⟩
  | deleteRange beginKey endKey => exact ⟨.rangeDeletion seq beginKey endKey, rfl, rfl, rfl⟩
  | batchWrite _ => exact ⟨.batch seq _, rfl, rfl, rfl⟩

/-- What a call does in the section: it extends the value log and commits one record. -/
structure Enters (db : Database) (seq : Nat) (call : Call) (log : VLogManager × List VLogFile)
    (record : WALRecord) : Prop where
  seq_eq : record.seq = seq
  sound : log.1.Sound log.2
  extended : LogExtends db.disk.vlogs log.2
  prepared : List.Forall₂ (Prepared (db.withVLog log).vlog (db.withVLog log).disk.vlogs)
    call.ops record.ops
  written : db.writeCall seq call = (db.withVLog log).commit record

theorem exists_enters {db : Database} (sound : db.vlog.Sound db.disk.vlogs)
    {call : Call} (fits : LogFits db.options call.ops db.vlog db.disk.vlogs) :
    ∃ log record, Enters db seq call log record := by
  obtain ⟨record, seq_eq, ops_eq, written⟩ := db.writeCall_eq
  obtain ⟨later, extended, prepared⟩ := prepareOps_spec call.ops sound fits
  exact ⟨_, record, seq_eq, later, extended, ops_eq ▸ prepared, written⟩

/-- A background step keeps memtables, tables and the value log in their form. -/
theorem Housed.maintain {db : Database} (housed : Housed db) (numbered : Numbered db)
    {step : Maintenance} (orderly : db.Orderly step) (untied : db.UntiedInputs step)
    (sorter : StdSort internalKeyLess) :
    Housed (db.maintain sorter step) ∧ Numbered (db.maintain sorter step) ∧
      (db.maintain sorter step).points ⊆ db.points ∧
      (db.maintain sorter step).lastSeq = db.lastSeq := by
  have turn := turn_maintain numbered orderly sorter
  have unseen : Flushed (fun _ => False) db := fun _ _ _ _ _ hidden => hidden.elim
  rcases housed.turn unseen turn (untied_roundInputs untied) (fun _ _ _ _ _ hidden => hidden) with
    exchanges | ⟨_, rotated⟩
  · exact ⟨housed.exchange exchanges, turn.numbered numbered, exchanges.points_subset,
      exchanges.front.lastSeq⟩
  · exact ⟨housed.rotate rotated, turn.numbered numbered, rotated.points.subset, rotated.lastSeq⟩

end Database

/-! ## The steps -/

/-- The database, the claimed numbers that are not written yet, and the operations written
under each number. -/
structure Clients where
  db : Database
  claimed : List Nat
  made : List (Nat × List BatchOp)

/-- What clients and the background thread do. -/
inductive ClientEvent where
  /-- A client claims the next number. -/
  | claim
  /-- The client with the number enters the section under the write lock. -/
  | write (seq : Nat) (call : Call)
  | maintain (step : Maintenance)
  deriving DecidableEq, Repr

namespace Clients

/-- No client is active on an empty directory. -/
def fresh (options : Options) : Clients := ⟨.fresh options, [], []⟩

/-- One event. Only a claimed number is written, and only by a call that claims one. -/
def step (sorter : StdSort internalKeyLess) (state : Clients) : ClientEvent → Clients
  | .claim =>
      { state with db := state.db.claim, claimed := state.db.lastSeq :: state.claimed }
  | .write seq call =>
      if seq ∈ state.claimed ∧ call.claims = true then
        ⟨state.db.writeCall seq call, state.claimed.erase seq, (seq, call.ops) :: state.made⟩
      else state
  | .maintain step => { state with db := state.db.maintain sorter step }

/-- What holds between the events, in whatever order the calls enter. -/
structure Sound (state : Clients) : Prop where
  housed : state.db.Housed
  numbered : state.db.Numbered
  pending : ∀ seq ∈ state.claimed, seq < state.db.lastSeq ∧ seq ∉ state.made.map Prod.fst
  unclaimed : ∀ write ∈ state.made, write.1 < state.db.lastSeq
  numbers : state.claimed.Nodup
  unique : (state.made.map Prod.fst).Nodup
  versions : ∀ entry ∈ state.db.points, entry.seq ∈ state.made.map Prod.fst

variable {state : Clients}

theorem sound_fresh {options : Options} : Sound (fresh options) where
  housed := (consistent_fresh options).toHoused
  numbered := numbered_fresh options
  pending := nofun
  unclaimed := nofun
  numbers := nodup_nil
  unique := nodup_nil
  versions := fun entry member => by
    change entry ∈ (Database.fresh options).points at member
    rw [points_fresh] at member
    exact absurd member (Set.notMem_empty entry)

theorem Sound.claim (sound : Sound state) (room : state.db.lastSeq < 2 ^ 56)
    (sorter : StdSort internalKeyLess) : Sound (state.step sorter .claim) where
  housed := sound.housed.claim room
  numbered := sound.numbered.congr rfl (le_refl _)
  pending := by
    intro seq member
    rcases mem_cons.mp member with rfl | old
    · refine ⟨Nat.lt_succ_self _, fun written => ?_⟩
      obtain ⟨write, listed, _⟩ := mem_map.mp written
      exact absurd (sound.unclaimed write listed) (by omega)
    · exact ⟨Nat.lt_succ_of_lt (sound.pending seq old).1, (sound.pending seq old).2⟩
  unclaimed := fun write listed => Nat.lt_succ_of_lt (sound.unclaimed write listed)
  numbers := nodup_cons.mpr ⟨fun member =>
    lt_irrefl _ (sound.pending state.db.lastSeq member).1, sound.numbers⟩
  unique := sound.unique
  versions := sound.versions

section Entry

variable {seq : Nat} {call : Call} {log : VLogManager × List VLogFile} {record : WALRecord}

section

variable (sound : Sound state) (enters : state.db.Enters seq call log record)
  (users : UserKeys call.ops) (member : seq ∈ state.claimed)
include sound enters users member

/-- A claimed number has no version yet. -/
theorem Sound.insertable : (state.db.withVLog log).Insertable record := by
  obtain ⟨rfl, _, _, prepared, _⟩ := enters
  obtain ⟨claimed, unwritten⟩ := sound.pending record.seq member
  exact
    { claimed := claimed
      keys := userKey_of_prepared prepared users
      apart := fun _ _ other old _ same => unwritten (same ▸ sound.versions other old)
      resident := resident_of_prepared prepared }

theorem Sound.write :
    Sound ⟨state.db.writeCall seq call, state.claimed.erase seq,
      (seq, call.ops) :: state.made⟩ := by
  have insertable := sound.insertable enters users member
  obtain ⟨rfl, log_sound, extended, _, written⟩ := enters
  obtain ⟨claimed, unwritten⟩ := sound.pending record.seq member
  rw [written]
  refine
    { housed := (sound.housed.withVLog log_sound extended).commit insertable
      numbered := sound.numbered.congr rfl (le_refl _)
      pending := ?_
      unclaimed := ?_
      numbers := sound.numbers.erase _
      unique := nodup_cons.mpr ⟨unwritten, sound.unique⟩
      versions := ?_ }
  · intro other still
    obtain ⟨different, old⟩ := sound.numbers.mem_erase_iff.mp still
    obtain ⟨bound, unlisted⟩ := sound.pending other old
    refine ⟨bound, fun listed => ?_⟩
    rcases mem_cons.mp listed with same | before
    · exact different same
    · exact unlisted before
  · intro write listed
    rcases mem_cons.mp listed with rfl | old
    · exact claimed
    · exact sound.unclaimed write old
  · intro entry present
    rcases mem_points_of_commit present with new | old
    · rw [WALRecord.seq_of_mem_points new]
      exact mem_cons_self
    · exact mem_cons_of_mem _ (sound.versions entry old)

end

end Entry

theorem Sound.maintain (sound : Sound state) (sorter : StdSort internalKeyLess)
    {step : Maintenance} (orderly : state.db.Orderly step) (untied : state.db.UntiedInputs step) :
    Sound (state.step sorter (.maintain step)) := by
  obtain ⟨housed, numbered, points, lastSeq⟩ :=
    sound.housed.maintain sound.numbered orderly untied sorter
  exact
    { housed := housed
      numbered := numbered
      pending := fun seq member => lastSeq.symm ▸ sound.pending seq member
      unclaimed := fun write listed => lastSeq.symm ▸ sound.unclaimed write listed
      numbers := sound.numbers
      unique := sound.unique
      versions := fun entry member => sound.versions entry (points member) }

end Clients

end LightKV
