import LightKV.Journal

/-!
# Range tombstones in memtables and tables

The list of range tombstones is in memory only. Opening a directory rebuilds it from the
logs and from the tables, where a flush has stored the tombstones of a memtable beside its
versions, under a key made of a marker and the begin of the range. A merge treats such a
key like any other: of several tombstones with one begin it keeps the newest. If an older
one ends later, the keys between the two ends are not hidden any more once the list is
rebuilt. So the inputs of a round shall be `Widening`; then every registered tombstone is
dominated by one that a memtable or a table still holds.
-/

namespace LightKV

open List hiding range
open Versions Levels

namespace RangeTombstone

/-- It spans the keys of the other one and is at least as new. -/
structure Dominates (wide narrow : RangeTombstone) : Prop where
  beginKey : wide.beginKey ≤ narrow.beginKey
  endKey : narrow.endKey ≤ wide.endKey
  seq : narrow.seq ≤ wide.seq

theorem Dominates.refl {tombstone : RangeTombstone} : tombstone.Dominates tombstone :=
  ⟨le_refl _, le_refl _, le_refl _⟩

theorem Dominates.trans {first second third : RangeTombstone} (upper : first.Dominates second)
    (lower : second.Dominates third) : first.Dominates third :=
  ⟨le_trans upper.beginKey lower.beginKey, le_trans lower.endKey upper.endKey,
    le_trans lower.seq upper.seq⟩

theorem spans_iff {tombstone : RangeTombstone} :
    tombstone.spans key = true ↔ tombstone.beginKey ≤ key ∧ key < tombstone.endKey := by
  simp [spans]

/-- What the narrow one hides the wide one hides too. -/
theorem Dominates.hides {wide narrow : RangeTombstone} (dominates : wide.Dominates narrow)
    {key : Bytes} {seq snapshot later : Nat} (hidden : narrow.hides key seq snapshot = true)
    (seen : wide.seq ≤ later) : wide.hides key seq later = true := by
  obtain ⟨older, _, spanned⟩ := (hides_iff ..).mp hidden
  obtain ⟨lower, upper⟩ := spans_iff.mp spanned
  exact (hides_iff ..).mpr ⟨lt_of_lt_of_le older dominates.seq, seen, spans_iff.mpr
    ⟨le_trans dominates.beginKey lower, lt_of_lt_of_le upper dominates.endKey⟩⟩

end RangeTombstone

/-- Lists that dominate each other cover the same versions for readers that see all of
them. -/
theorem covered_eq_of_dominated {first second : List RangeTombstone}
    (forth : ∀ tombstone ∈ first, ∃ wide ∈ second, wide.Dominates tombstone)
    (back : ∀ tombstone ∈ second, ∃ wide ∈ first, wide.Dominates tombstone)
    (seen : ∀ tombstone ∈ first, tombstone.seq ≤ snapshot)
    (later_seen : ∀ tombstone ∈ second, tombstone.seq ≤ later) (key : Bytes) (seq : Nat) :
    covered second key seq later = covered first key seq snapshot := by
  rw [Bool.eq_iff_iff, covered_iff, covered_iff]
  constructor
  · rintro ⟨tombstone, member, hidden⟩
    obtain ⟨wide, in_first, dominates⟩ := back tombstone member
    exact ⟨wide, in_first, dominates.hides hidden (seen wide in_first)⟩
  · rintro ⟨tombstone, member, hidden⟩
    obtain ⟨wide, in_second, dominates⟩ := forth tombstone member
    exact ⟨wide, in_second, dominates.hides hidden (later_seen wide in_second)⟩

/-- Of two tombstones stored under one key the newer one does not end earlier. -/
def Widening (tables : List SSTable) : Prop :=
  ∀ entry ∈ versionsOf tables, ∀ newer ∈ versionsOf tables, reserved entry.key = true →
    entry.key = newer.key → entry.seq ≤ newer.seq → entry.value ≤ newer.value
  deriving Decidable

namespace Database

variable {db later : Database} {tombstone : RangeTombstone}

/-- A table stores the tombstone. -/
def TableHolds (db : Database) (tombstone : RangeTombstone) : Prop :=
  ∃ table ∈ db.tables, SSTable.tombstoneEntry tombstone ∈ table.entries

/-- A memtable or a table holds the tombstone. -/
def Holds (db : Database) (tombstone : RangeTombstone) : Prop :=
  tombstone ∈ db.mem.rangeTombstones ∨
    (∃ imm, db.imm = some imm ∧ tombstone ∈ imm.rangeTombstones) ∨ db.TableHolds tombstone

/-- Registered tombstones are held, or wider ones are; and those of a memtable whose table is
written are in tables. -/
structure Remembered (db : Database) : Prop where
  registered : ∀ tombstone ∈ db.rangeTombstones, ∃ wide, db.Holds wide ∧ wide.Dominates tombstone
  flushed : db.flushing = true → ∀ imm, db.imm = some imm → ∀ tombstone ∈ imm.rangeTombstones,
    ∃ wide, db.TableHolds wide ∧ wide.Dominates tombstone

theorem Consistent.registered_of_holds (consistent : Consistent db) (held : db.Holds tombstone) :
    tombstone ∈ db.rangeTombstones := by
  rcases held with active | ⟨imm, pending, waiting⟩ | ⟨table, present, stored⟩
  · exact consistent.memTombstones active
  · exact consistent.immTombstones imm pending waiting
  · rcases consistent.stored table present _ stored with user | ⟨_, registered, same⟩
    · exact absurd user (not_userKey_tombstoneEntry tombstone)
    · have equal : tombstone = _ := congrArg SSTable.tombstoneOf same
      exact equal ▸ registered

/-! ## Steps -/

section

variable (remembered : Remembered db)
include remembered

/-- A step behind which everything held is still dominated by something held. -/
theorem Remembered.of_holds (registered : later.rangeTombstones = db.rangeTombstones)
    (holds : ∀ tombstone, db.Holds tombstone → ∃ wide, later.Holds wide ∧ wide.Dominates tombstone)
    (flushed : later.flushing = true → ∀ imm, later.imm = some imm →
      ∀ tombstone ∈ imm.rangeTombstones, ∃ wide, later.TableHolds wide ∧ wide.Dominates tombstone) :
    Remembered later := by
  refine ⟨?_, flushed⟩
  rw [registered]
  intro tombstone member
  obtain ⟨held, holding, dominates⟩ := remembered.registered tombstone member
  obtain ⟨wide, still, wider⟩ := holds held holding
  exact ⟨wide, still, wider.trans dominates⟩

/-- The same, where only tables change. -/
theorem Remembered.of_tables (only : TablesOnly db later) (flushing : later.flushing = db.flushing)
    (tables : ∀ tombstone, db.TableHolds tombstone →
      ∃ wide, later.TableHolds wide ∧ wide.Dominates tombstone) :
    Remembered later := by
  refine remembered.of_holds only.rangeTombstones ?_ ?_
  · rintro tombstone (active | ⟨imm, pending, waiting⟩ | stored)
    · refine ⟨tombstone, .inl ?_, .refl⟩
      rw [only.mem]
      exact active
    · refine ⟨tombstone, .inr (.inl ⟨imm, ?_, waiting⟩), .refl⟩
      rw [only.imm]
      exact pending
    · obtain ⟨wide, still, dominates⟩ := tables tombstone stored
      exact ⟨wide, .inr (.inr still), dominates⟩
  · intro later_flushing imm pending tombstone member
    rw [flushing] at later_flushing
    rw [only.imm] at pending
    obtain ⟨stored, holding, dominates⟩ :=
      remembered.flushed later_flushing imm pending tombstone member
    obtain ⟨wide, still, wider⟩ := tables stored holding
    exact ⟨wide, still, wider.trans dominates⟩

theorem Remembered.triggerFlush (consistent : Consistent db) : Remembered db.triggerFlush := by
  cases pending : db.imm with
  | some _ =>
    rw [triggerFlush_of_some pending]
    exact remembered
  | none =>
    rw [triggerFlush_of_none pending]
    refine remembered.of_holds rfl ?_ ?_
    · rintro tombstone (active | ⟨_, impossible, _⟩ | stored)
      · exact ⟨tombstone, .inr (.inl ⟨db.mem, rfl, active⟩), .refl⟩
      · rw [pending] at impossible
        cases impossible
      · exact ⟨tombstone, .inr (.inr stored), .refl⟩
    · intro flushing
      exact absurd ((consistent.idle pending).symm.trans flushing) nofun

/-- The table of a flush stores the tombstones of the memtable. -/
theorem Remembered.flushWrite (consistent : Consistent db) : Remembered (db.flushWrite sorter) := by
  rcases db.flushWrite_cases sorter with same | ⟨imm, pending, written⟩
  · rw [same]
    exact remembered
  rw [written]
  have table_cases := db.mem_tables_written sorter imm
  refine remembered.of_holds rfl ?_ ?_
  · rintro tombstone (active | waiting | ⟨other, present, stored⟩)
    · exact ⟨tombstone, .inl active, .refl⟩
    · exact ⟨tombstone, .inr (.inl waiting), .refl⟩
    · exact ⟨tombstone, .inr (.inr ⟨other, (table_cases other).mpr (.inl present), stored⟩),
        .refl⟩
  intro _ other later_pending tombstone member
  obtain rfl : imm = other := Option.some.inj (pending.symm.trans later_pending)
  refine ⟨tombstone, ⟨_, (table_cases _).mpr (.inr rfl), ?_⟩, .refl⟩
  rw [TableBuilder.entries_build]
  exact (consistent.mem_flushEntries_imm pending sorter _).mpr (.inr ⟨tombstone, member, rfl⟩)

theorem Remembered.flushRelease : Remembered db.flushRelease := by
  unfold Database.flushRelease
  split
  · rename_i flushing
    refine remembered.of_holds rfl ?_ nofun
    rintro tombstone (active | ⟨imm, pending, waiting⟩ | stored)
    · exact ⟨tombstone, .inl active, .refl⟩
    · obtain ⟨wide, holding, dominates⟩ := remembered.flushed flushing imm pending tombstone waiting
      exact ⟨wide, .inr (.inr holding), dominates⟩
    · exact ⟨tombstone, .inr (.inr stored), .refl⟩
  · exact remembered

end

/-- The newest tombstone of a begin key, which a merge keeps, is the widest. -/
theorem exists_dominating (consistent : Consistent db) (merged : Merged inputs outputs)
    (present : ∀ table ∈ inputs, table ∈ db.tables) (widening : Widening inputs)
    (stored : SSTable.tombstoneEntry tombstone ∈ versionsOf inputs) :
    ∃ wide, SSTable.tombstoneEntry wide ∈ versionsOf outputs ∧ wide.Dominates tombstone := by
  obtain ⟨newer, written, same_key, newest⟩ := merged.covered _ stored
  have read := merged.mem_inputs written
  obtain ⟨table, input, inside⟩ := mem_versionsOf.mp read
  have reserved_key : reserved newer.key = true := by
    rw [same_key]
    exact SSTable.reserved_tombstoneEntry
  rcases consistent.stored table (present table input) newer inside with user | ⟨wide, _, rfl⟩
  · rw [user.2] at reserved_key
    cases reserved_key
  have later_seq : tombstone.seq ≤ wide.seq := Entry.seq_le_of_rank_le newest
  have same_begin : wide.beginKey = tombstone.beginKey := append_cancel_left same_key
  have wider := widening _ stored _ read SSTable.reserved_tombstoneEntry
    same_key.symm later_seq
  exact ⟨wide, written, le_of_eq same_begin, wider, later_seq⟩

section

variable (remembered : Remembered db)
include remembered

theorem Remembered.finishRound (consistent : Consistent db)
    (round : Succeeds db level picked rest range)
    (widening : Widening (picked ++ db.overlapping level range)) :
    Remembered (db.finishRound level picked rest range) := by
  have merged := consistent.merged_round round
  refine remembered.of_tables (tablesOnly_round ..) rfl ?_
  rintro tombstone ⟨table, present, stored⟩
  rcases @mem_tables_or_merged _ _ _ _ _ round.front _ present with stays | input
  · exact ⟨tombstone, ⟨table, stays, stored⟩, .refl⟩
  obtain ⟨wide, written, dominates⟩ := exists_dominating consistent merged
    (fun _ input => mem_tables_of_input round.inner round.front input) widening
    (mem_versionsOf.mpr ⟨table, input, stored⟩)
  obtain ⟨output, added, inside⟩ := mem_versionsOf.mp written
  exact ⟨wide, ⟨output, mem_tables_of_added round.inner added, inside⟩, dominates⟩

theorem Remembered.maintain (consistent : Consistent db)
    (numbered : Numbered db) {step : Maintenance} (orderly : db.Orderly step)
    (widening : Widening (db.roundInputs step)) :
    Remembered (db.maintain sorter step) := by
  have turn := turn_maintain numbered orderly sorter
  generalize db.maintain sorter step = later at turn
  cases turn with
  | same => exact remembered
  | rotated _ => exact remembered.triggerFlush consistent
  | flushed => exact remembered.flushWrite consistent
  | released => exact remembered.flushRelease
  | claimed _ | failed _ _ _ => exact ⟨remembered.registered, remembered.flushed⟩
  | merged round inputs _ _ =>
    exact remembered.finishRound consistent round (inputs ▸ widening)

/-- A committed record leaves its tombstones in the memtable. -/
theorem Remembered.commit : Remembered (db.commit record) := by
  have mem_eq : (db.commit record).mem.rangeTombstones =
      db.mem.rangeTombstones ++ record.tombstones := by
    change (db.mem.replayRecord record).rangeTombstones = _
    rw [MemTable.replayRecord_eq, MemTable.rangeTombstones_applyAll]
    rfl
  refine ⟨?_, remembered.flushed⟩
  intro tombstone member
  rcases mem_append.mp member with old | new
  · obtain ⟨wide, holding, dominates⟩ := remembered.registered tombstone old
    refine ⟨wide, holding.imp_left fun active => ?_, dominates⟩
    rw [mem_eq]
    exact mem_append_left _ active
  · refine ⟨tombstone, .inl ?_, .refl⟩
    rw [mem_eq]
    exact mem_append_right _ new

theorem Remembered.call {call : Call} : Remembered (db.call call) := by
  rcases db.call_cases call with ⟨same, _⟩ | ⟨record, _, _, written⟩
  · rw [same]
    exact remembered
  rw [written]
  have claimed : Remembered (db.claim.withVLog
      (prepareOps db.options call.ops db.vlog db.disk.vlogs).2) :=
    ⟨remembered.registered, remembered.flushed⟩
  exact claimed.commit

end

end Database

end LightKV
