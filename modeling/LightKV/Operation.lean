import LightKV.Recovery
import LightKV.Rounds
import LightKV.Runs
import LightKV.Writes

/-!
# The engine in operation

The events of a database: calls of a client, steps of the background work, and a crash,
behind which the directory is opened again. A run starts from a directory that was empty
when it was opened.

A background step changes no answer as long as a round is `Orderly`, and a call answers as
the abstract map does as long as the database `Accepts` it. Both keep the invariant.
-/

namespace LightKV

open Versions Levels List Database

/-- A step of the background work. -/
inductive Maintenance where
  | triggerFlush
  | flushWrite
  | flushRelease
  | level0Compaction
  | levelCompaction (level : Nat)
  | compactionError (claimed : Nat)
  deriving DecidableEq, Repr

/-- A call of a client. -/
inductive Call where
  | put (key value : Bytes)
  | delete (key : Bytes)
  | deleteRange (beginKey endKey : Bytes)
  | batchWrite (ops : List BatchOp)
  deriving DecidableEq, Repr

/-- What a call does to the abstract map. -/
def Call.ops : Call → List BatchOp
  | .put key value => [.value key value]
  | .delete key => [.deletion key]
  | .deleteRange beginKey endKey => [.rangeDeletion beginKey endKey]
  | .batchWrite ops => ops

/-- An event: a call, a background step, or a kill that leaves a directory, which is then
opened. -/
inductive Event where
  | call (made : Call)
  | maintain (step : Maintenance)
  | crash (killed : Disk)

/-- The operations of an event. -/
def Event.ops : Event → List BatchOp
  | .call made => made.ops
  | _ => []

namespace Database

/-- A background step. -/
def maintain (sorter : StdSort internalKeyLess) (db : Database) : Maintenance → Database
  | .triggerFlush => db.triggerFlush
  | .flushWrite => db.flushWrite sorter
  | .flushRelease => db.flushRelease
  | .level0Compaction => db.doLevel0Compaction.2
  | .levelCompaction level => (db.doLevelCompaction level).2
  | .compactionError claimed => db.compactionError claimed

/-- A call. -/
def call (db : Database) : Call → Database
  | .put key value => db.put key value
  | .delete key => db.delete key
  | .deleteRange beginKey endKey => (db.deleteRange beginKey endKey).2
  | .batchWrite ops => db.batchWrite ops

/-- A restart on the directory that a kill left. -/
def restart (db : Database) (killed : Disk) : Database :=
  match openDatabase db.options killed with
  | .ok again => again
  | .error _ => db

/-- One event. -/
def step (sorter : StdSort internalKeyLess) (db : Database) : Event → Database
  | .call made => db.call made
  | .maintain step => db.maintain sorter step
  | .crash killed => db.restart killed

/-- The database on a directory that was empty. -/
def fresh (options : Options) : Database where
  options := options
  lastSeq := 0
  nextFileId := 1
  flushedSeq := 0
  mem := .new
  imm := none
  flushing := false
  levels := fun _ => []
  rangeTombstones := []
  manifest := .new
  nextWalId := 2
  walPath := walName 1
  immWalPath := []
  vlog := (VLogManager.initializeVLog []).1
  disk := Disk.empty.opened

/-- Opening an empty directory gives the fresh database. -/
theorem openDatabase_empty {options : Options} :
    openDatabase options Disk.empty = .ok (fresh options) := by
  unfold openDatabase
  have found : Disk.empty.metadata = .ok (Function.update (fun _ => []) 0 [], .new) := rfl
  rw [found, Function.update_eq_self]
  rfl

theorem tables_fresh {options : Options} : (fresh options).tables = [] := rfl

theorem not_mem_run_fresh {options : Options}
    (source : run ∈ (fresh options).runs) : entry ∉ run := by
  rcases source with rfl | ⟨_, impossible, _⟩ | ⟨_, impossible, _⟩
  · simp [fresh, MemTable.new]
  · exact absurd impossible (by simp [fresh])
  · exact absurd impossible (by simp [tables_fresh])

variable (options : Options)

theorem points_fresh : (fresh options).points = ∅ := by
  apply Set.eq_empty_of_forall_notMem
  rintro _ ⟨_, _, source, inside⟩
  exact not_mem_run_fresh source inside

theorem consistent_fresh : Consistent (fresh options) where
  older run source entry inside := absurd inside (not_mem_run_fresh source)
  wellFormed := by simp [tables_fresh]
  level := fun _ _ _ => ⟨by simp [fresh], by simp [fresh], List.Pairwise.nil⟩
  closed run source _ _ entry inside := absurd inside (not_mem_run_fresh source)
  memFirst := by
    intro _ _ _ _ stack
    exact absurd stack (by simp [fresh])
  immFirst := by simp [fresh]
  coherent := by simp [points_fresh]
  memTombstones := List.Subset.refl _
  immTombstones := by simp [fresh]
  bounded := Nat.zero_le _
  memKeys := by simp [fresh, MemTable.new]
  immKeys := by simp [fresh]
  stored := by simp [tables_fresh]
  pastTombstones := by simp [fresh]
  idle := fun _ => rfl
  flushed := by simp [fresh]
  resident := by simp [points_fresh]
  sound := (VLogManager.sound_initializeVLog []).1

theorem numbered_fresh : Numbered (fresh options) :=
  ⟨by simp [fresh], by simp [fresh], by simp [fresh]⟩

theorem get_fresh (user : UserKey key) : (fresh options).get key = Store.empty.answer key :=
  (consistent_fresh options).toReadable.get_eq_notFound user (by simp [points_fresh])

variable {db : Database} {step : Maintenance} {later : Database}

/-! ## Background steps -/

/-- What a background step needs for the levels to stay in order. -/
def Orderly (db : Database) : Maintenance → Prop
  | .level0Compaction => db.Level0Orderly
  | .levelCompaction level => db.LevelOrderly level
  | _ => True

instance (db : Database) : DecidablePred db.Orderly := by
  intro event
  unfold Orderly
  split <;> infer_instance

/-- The inputs of a round hold no key with both types under one sequence number. -/
def UntiedInputs (db : Database) : Maintenance → Prop
  | .level0Compaction =>
      Untied (db.level0Picked ++ db.overlapping 0 (level0Range db.level0Picked))
  | .levelCompaction level => level + 1 < numLevels → ∀ picked ∈ (db.levels level).head?,
      Untied ([picked] ++ db.overlapping level (picked.smallestKey, picked.largestKey))
  | _ => True

instance (db : Database) : DecidablePred db.UntiedInputs := by
  intro event
  unfold UntiedInputs
  split <;> infer_instance

/-- The numbering depends on the tables, and the counter may only grow. -/
theorem Numbered.congr (numbered : Numbered db) (levels : later.levels = db.levels)
    (grows : db.nextFileId ≤ later.nextFileId) : Numbered later := by
  constructor
  · rw [levels]
    exact fun level table member => lt_of_lt_of_le (numbered.below level table member) grows
  · rw [levels]
    exact numbered.unique
  · rw [levels]
    exact numbered.nodup

/-- A flush gives its table the next number. -/
theorem Numbered.flushWrite (numbered : Numbered db) :
    Numbered (db.flushWrite sorter) := by
  rcases db.flushWrite_cases sorter with same | ⟨_, _, written⟩
  · rw [same]
    exact numbered
  rw [written]
  refine numbered.gains (gains_append rfl) (Nat.le_succ _) (nodup_singleton _) ?_ ?_
  · intro _ member
    rw [mem_singleton.mp member]
    exact Nat.lt_succ_self _
  · intro _ member level old present
    rw [mem_singleton.mp member]
    exact ne_of_lt (numbered.below level old present)

/-- The tables that a step merges, if it is a round. -/
def roundInputs (db : Database) : Maintenance → List SSTable
  | .level0Compaction => db.level0Picked ++ db.overlapping 0 (level0Range db.level0Picked)
  | .levelCompaction level =>
      match db.levels level with
      | [] => []
      | picked :: _ =>
          if level + 1 < numLevels then
            picked :: db.overlapping level (picked.smallestKey, picked.largestKey)
          else []
  | _ => []

theorem mem_tables_of_roundInputs (member : table ∈ db.roundInputs step) : table ∈ db.tables := by
  cases step with
  | level0Compaction =>
    exact mem_tables_of_input (by decide) db.level0Picked_append.symm member
  | levelCompaction level =>
    simp only [roundInputs] at member
    split at member
    · cases member
    rename_i picked rest front
    have front : db.levels level = [picked] ++ rest := front
    split at member
    · rename_i inner
      exact mem_tables_of_input inner front member
    · cases member
  | triggerFlush | flushWrite | flushRelease | compactionError _ => cases member

/-- What an orderly background step comes to. -/
inductive Turn (sorter : StdSort internalKeyLess) (db : Database) (step : Maintenance) :
    Database → Prop
  | same : Turn sorter db step db
  | rotated (rotation : step = .triggerFlush) : Turn sorter db step db.triggerFlush
  | flushed : Turn sorter db step (db.flushWrite sorter)
  | released : Turn sorter db step db.flushRelease
  | claimed (count : Nat) : Turn sorter db step (db.compactionError count)
  /-- A merge that fails leaves its outputs in the directory. -/
  | failed (level : Nat) (picked : List SSTable) (range : Bytes × Bytes) :
      Turn sorter db step (db.withOutputs (db.roundResult level picked range))
  | merged {level : Nat} {picked rest : List SSTable} {range : Bytes × Bytes}
      (round : Succeeds db level picked rest range)
      (inputs : db.roundInputs step = picked ++ db.overlapping level range)
      (orderly : db.RoundOrderly level picked range)
      (within : (∀ table ∈ picked, table.WellFormed) →
        (∀ table ∈ picked, ∀ entry ∈ table.entries, entry.key ≠ []) →
          ∀ table ∈ picked, Within range table) :
      Turn sorter db step (db.finishRound level picked rest range)

theorem turn_maintain (numbered : Numbered db) (orderly : db.Orderly step)
    (sorter : StdSort internalKeyLess) : Turn sorter db step (db.maintain sorter step) := by
  cases step with
  | triggerFlush => exact .rotated rfl
  | flushWrite => exact .flushed
  | flushRelease => exact .released
  | compactionError claimed => exact .claimed claimed
  | level0Compaction =>
    simp only [maintain]
    by_cases filled : db.levels 0 = []
    · have same : db.doLevel0Compaction = (.ok, db) := by simp [doLevel0Compaction, filled]
      rw [same]
      exact .same
    rw [db.doLevel0Compaction_eq orderly.1 filled]
    split
    · rename_i succeeded
      refine .merged ⟨by decide, db.level0Picked_append.symm, level0Picked_ne_nil filled,
        succeeded⟩ rfl orderly.2 fun wellFormed => ?_
      exact within_level0Range fun table member => (wellFormed table member).sorted.keySorted
    · exact .failed ..
  | levelCompaction level =>
    simp only [maintain]
    by_cases inner : level + 1 < numLevels
    · cases front : db.levels level with
      | nil =>
        have same : db.doLevelCompaction level = (.ok, db) := by simp [doLevelCompaction, front]
        rw [same]
        exact .same
      | cons picked _ =>
        rw [doLevelCompaction_eq numbered inner front]
        split
        · rename_i succeeded
          refine .merged ⟨inner, front, cons_ne_nil _ _, succeeded⟩ ?_
            (orderly picked (by rw [front]; rfl)) ?_
          · simp only [roundInputs, front, if_pos inner]
            rfl
          · intro wellFormed _ _ member
            rw [mem_singleton.mp member]
            exact within_own (wellFormed picked mem_cons_self).sorted.keySorted
        · exact .failed ..
    · have same : db.doLevelCompaction level = (.ok, db) := by
        simp [doLevelCompaction, Nat.le_of_not_lt inner]
      rw [same]
      exact .same

/-- A background step keeps the numbering. -/
theorem Turn.numbered (turn : Turn sorter db step later) (numbered : Numbered db) :
    Numbered later := by
  cases turn with
  | same => exact numbered
  | rotated _ =>
    refine numbered.congr ?_ ?_ <;>
    · unfold triggerFlush
      split <;> rfl
  | flushed => exact numbered.flushWrite
  | released =>
    refine numbered.congr ?_ ?_ <;>
    · unfold flushRelease
      split <;> rfl
  | claimed _ => exact numbered.congr rfl (Nat.le_add_right _ _)
  | failed _ _ _ => exact numbered.withOutputs (db.numbered_added _ _ _).2.2.1
  | merged round _ _ _ => exact numbered.finishRound round.front

/-- The tables that a round takes are in order, and hold no empty key. -/
theorem Housed.formed_of_picked (housed : Housed db)
    (inputs : db.roundInputs step = picked ++ others) :
    (∀ table ∈ picked, table.WellFormed) ∧
      ∀ table ∈ picked, ∀ entry ∈ table.entries, entry.key ≠ [] := by
  have present : ∀ table ∈ picked, table ∈ db.tables := fun _ taken =>
    mem_tables_of_roundInputs (inputs ▸ mem_append_left _ taken)
  exact ⟨fun table taken => housed.wellFormed table (present table taken),
    fun table taken _ inside => housed.key_ne_nil (present table taken) inside⟩

/-- A background step rotates, or it exchanges tables. -/
theorem Housed.turn (housed : Housed db) (flushed : Flushed visible db)
    (turn : Turn sorter db step later) (untied : Untied (db.roundInputs step))
    (upward : ∀ entry ∈ versionsOf (db.roundInputs step), ∀ newer ∈ versionsOf (db.roundInputs
      step), newer.key = entry.key → visible entry → visible newer) :
    Exchanges visible db later ∨ step = .triggerFlush ∧ Rotated db later := by
  cases turn with
  | same => exact .inl (housed.exchanges_refl flushed)
  | rotated rotation =>
    rcases db.triggerFlush_cases with same | rotated
    · rw [same]
      exact .inl (housed.exchanges_refl flushed)
    · exact .inr ⟨rotation, rotated⟩
  | flushed => exact .inl (housed.exchanges_flushWrite flushed sorter)
  | released => exact .inl (housed.exchanges_flushRelease flushed)
  | claimed _ =>
    exact .inl { housed.exchanges_refl flushed with front := ⟨rfl, rfl, .inl rfl, rfl, rfl, rfl⟩ }
  | failed _ _ _ => exact .inl (housed.exchanges_withOutputs flushed)
  | merged round inputs orderly within =>
    rw [inputs] at untied upward
    exact .inl (housed.exchanges_finishRound flushed round
      (within (housed.formed_of_picked inputs).1 (housed.formed_of_picked inputs).2) orderly untied
      upward)

theorem untied_roundInputs (untied : db.UntiedInputs step) : Untied (db.roundInputs step) := by
  have nothing : Untied [] := fun _ member => absurd member (by simp [versionsOf])
  cases step with
  | level0Compaction => exact untied
  | levelCompaction _ =>
    simp only [roundInputs]
    split
    · exact nothing
    rename_i picked rest front
    split
    · rename_i inner
      exact untied inner picked (by rw [front]; rfl)
    · exact nothing
  | triggerFlush | flushWrite | flushRelease | compactionError _ => exact nothing

/-- A background step keeps the invariant and the answers. -/
theorem Consistent.maintain (consistent : Consistent db) (numbered : Numbered db)
    (orderly : db.Orderly step) (untied : db.UntiedInputs step) (sorter : StdSort internalKeyLess) :
    Maintains db (db.maintain sorter step) ∧ Numbered (db.maintain sorter step) := by
  have turn := turn_maintain numbered orderly sorter
  refine ⟨?_, turn.numbered numbered⟩
  rcases consistent.turn consistent.flushed_all turn (untied_roundInputs untied)
    (fun _ _ _ _ _ _ => trivial) with exchanges | ⟨_, rotated⟩
  · exact consistent.exchange exchanges
  · exact consistent.rotate_maintains rotated

/-! ## Calls -/

/-- What a call needs: a sequence number of 56 bits, user keys, operations in an order that
one sequence number can express, and room in the value log. -/
structure Accepts (db : Database) (call : Call) : Prop where
  room : db.lastSeq < 2 ^ 56
  keys : UserKeys call.ops
  ordered : Ordered call.ops
  fits : LogFits db.options call.ops db.vlog db.disk.vlogs

instance (db : Database) : DecidablePred db.Accepts := fun call =>
  decidable_of_iff (db.lastSeq < 2 ^ 56 ∧ UserKeys call.ops ∧ Ordered call.ops ∧
      LogFits db.options call.ops db.vlog db.disk.vlogs)
    ⟨fun ⟨room, keys, ordered, fits⟩ => ⟨room, keys, ordered, fits⟩,
      fun accepts => ⟨accepts.room, accepts.keys, accepts.ordered, accepts.fits⟩⟩

/-- A range that ends where it begins, or in front of it, has no keys. -/
theorem not_touches_of_not_lt (range : ¬ beginKey < endKey) :
    BatchOp.touches key (.rangeDeletion beginKey endKey) = false := by
  simp only [BatchOp.touches, RangeTombstone.spans, Bool.and_eq_false_iff]
  rcases lt_or_ge key beginKey with below | reached
  · exact .inl (by simp [below])
  · exact .inr (decide_eq_false (not_lt_of_ge (le_trans (le_of_not_gt range) reached)))

/-- A call either does nothing, and touches no key, or commits one record with the next
sequence number. -/
theorem call_cases (db : Database) (call : Call) :
    (db.call call = db ∧ ∀ key, BatchOp.lastTouch call.ops key = none) ∨
      ∃ record : WALRecord, record.seq = db.lastSeq ∧
        record.ops = (prepareOps db.options call.ops db.vlog db.disk.vlogs).1 ∧
        db.call call = (db.claim.withVLog
          (prepareOps db.options call.ops db.vlog db.disk.vlogs).2).commit record := by
  cases call with
  | put key value =>
    exact .inr ⟨.value db.lastSeq key (db.vlog.storeValue db.disk.vlogs db.options value).1,
      rfl, rfl, rfl⟩
  | delete key => exact .inr ⟨.deletion db.lastSeq key, rfl, rfl, rfl⟩
  | deleteRange beginKey endKey =>
    by_cases range : beginKey < endKey
    · refine .inr ⟨.rangeDeletion db.lastSeq beginKey endKey, rfl, rfl, ?_⟩
      rw [call, deleteRange, if_pos range]
      rfl
    · refine .inl ⟨by rw [call, deleteRange, if_neg range], ?_⟩
      simp [BatchOp.lastTouch, Call.ops, not_touches_of_not_lt range]
  | batchWrite ops =>
    cases ops with
    | nil => exact .inl ⟨rfl, fun _ => rfl⟩
    | cons _ _ => exact .inr ⟨.batch db.lastSeq _, rfl, rfl, rfl⟩

theorem Numbered.call (numbered : Numbered db) {call : Call} : Numbered (db.call call) := by
  rcases db.call_cases call with ⟨same, _⟩ | ⟨_, _, _, later⟩
  · rwa [same]
  · rw [later]
    exact numbered.congr rfl (le_refl _)

/-- A call keeps the invariant and answers as its operations say. -/
theorem Consistent.call (consistent : Consistent db) {call : Call} (accepts : db.Accepts call) :
    Consistent (db.call call) ∧ ∀ key, UserKey key →
      (db.call call).get key = Store.answerAfter call.ops key (db.get key) := by
  rcases db.call_cases call with ⟨same, untouched⟩ | ⟨_, seq_eq, ops_eq, later⟩
  · rw [same]
    refine ⟨consistent, ?_⟩
    intro _ _
    rw [Store.answerAfter, untouched]
  · rw [later]
    exact consistent.write accepts.room seq_eq ops_eq accepts.keys accepts.ordered accepts.fits

/-! ## One version for each sequence number -/

/-- Versions of a key with one sequence number have one type. Without batches this holds,
since every call has its own number. -/
def Unmixed (db : Database) : Prop :=
  ∀ first ∈ db.points, ∀ second ∈ db.points,
    first.key = second.key → first.seq = second.seq → first.type = second.type

/-- A record of one operation above the versions of its key keeps the numbers apart. -/
theorem Unmixed.commit (unmixed : Unmixed db)
    (above : ∀ entry ∈ record.points, ∀ other ∈ db.points, other.key = entry.key → other.seq <
      record.seq) (single : record.ops.length ≤ 1) : Unmixed (db.commit record) := by
  have one : record.points.length ≤ 1 := le_trans (length_filterMap_le _ _) single
  intro first in_first second in_second same_key same_seq
  rcases mem_points_of_commit in_first with new | old
  · have first_seq := WALRecord.seq_of_mem_points new
    rcases mem_points_of_commit in_second with also_new | old
    · obtain ⟨_, shape⟩ := length_eq_one_iff.mp (le_antisymm one (length_pos_of_mem new))
      rw [shape, mem_singleton] at new also_new
      rw [new, also_new]
    · have below := above first new second old same_key.symm
      omega
  · rcases mem_points_of_commit in_second with new | also_old
    · have second_seq := WALRecord.seq_of_mem_points new
      have below := above second new first old same_key
      omega
    · exact unmixed first old second also_old same_key same_seq

/-- A call of one operation keeps the numbers apart. -/
theorem Unmixed.call (unmixed : Unmixed db) (consistent : Consistent db) {call : Call}
    (single : call.ops.length ≤ 1) : Unmixed (db.call call) := by
  rcases db.call_cases call with ⟨same, _⟩ | ⟨_, seq_eq, ops_eq, later⟩
  · rwa [same]
  rw [later]
  apply Unmixed.commit unmixed
  · rintro _ _ other ⟨_, run, member, inside⟩ _
    rw [seq_eq]
    exact consistent.older run member other inside
  · rw [ops_eq, length_prepareOps]
    exact single

/-- A background step adds no version. -/
theorem Unmixed.maintain (unmixed : Unmixed db) (maintains : Maintains db later) : Unmixed later :=
  fun first in_first second in_second =>
    unmixed first (maintains.points in_first) second (maintains.points in_second)

theorem Consistent.untied_of_unmixed (consistent : Consistent db) (unmixed : Unmixed db)
    {tables : List SSTable} (present : ∀ table ∈ tables, table ∈ db.tables) : Untied tables := by
  -- A stored version is a version of the database or a tombstone, which is a value.
  have source : ∀ entry ∈ versionsOf tables,
      entry ∈ db.points ∨ ¬ UserKey entry.key ∧ entry.type = .value := by
    intro entry member
    obtain ⟨table, inside, held⟩ := mem_versionsOf.mp member
    rcases consistent.stored table (present table inside) entry held with user | ⟨tombstone, _, rfl⟩
    · exact .inl (mem_points_of_table (present table inside) user held)
    · exact .inr ⟨not_userKey_tombstoneEntry tombstone, rfl⟩
  intro first in_first second in_second same_key same_seq
  rcases source first in_first with point | ⟨stored, value⟩
  · rcases source second in_second with other | ⟨stored, _⟩
    · exact unmixed first point second other same_key same_seq
    · exact absurd (same_key ▸ point.1) stored
  · rcases source second in_second with point | ⟨_, other⟩
    · exact absurd (same_key ▸ point.1) stored
    · rw [value, other]

theorem Consistent.untiedInputs (consistent : Consistent db) (unmixed : Unmixed db)
    (step : Maintenance) : db.UntiedInputs step := by
  cases step with
  | level0Compaction =>
    apply consistent.untied_of_unmixed unmixed
    intro _ member
    exact mem_tables_of_input (by decide) (take_append_drop ..).symm member
  | levelCompaction level =>
    intro inner picked first
    obtain ⟨rest, front⟩ := head?_eq_some_iff.mp first
    apply consistent.untied_of_unmixed unmixed
    intro _ member
    exact mem_tables_of_input inner front member
  | triggerFlush | flushWrite | flushRelease | compactionError _ => trivial

end Database

end LightKV
