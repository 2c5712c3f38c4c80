import LightKV.BatchSemantics
import LightKV.Scan

/-!
# The flushed sequence number

A flush notes the highest sequence number of its memtable as `flushed_seq_`. Memtables are
flushed in the order in which they were filled, and a memtable is rotated behind a write,
so that it has content. Then no table holds a version above the flushed number: what a new
table brings is bounded by its memtable, and older tables are bounded by the number before.
A restart restores the number from the manifest and replays no memtable that is older.
-/

namespace LightKV

open List hiding range
open Versions Levels Runs

namespace MemTable

/-- `MaxSeq` is the highest number of the versions and the range tombstones. -/
structure Noted (mem : MemTable) : Prop where
  nodes : ∀ entry ∈ mem.nodes, entry.seq ≤ mem.maxSeq
  tombstones : ∀ tombstone ∈ mem.rangeTombstones, tombstone.seq ≤ mem.maxSeq
  attained : mem.maxSeq = 0 ∨ (∃ entry ∈ mem.nodes, entry.seq = mem.maxSeq) ∨
    ∃ tombstone ∈ mem.rangeTombstones, tombstone.seq = mem.maxSeq

theorem noted_new : Noted new := ⟨nofun, nofun, .inl rfl⟩

variable {mem more : MemTable}

/-- `Empty` looks at both kinds of content. -/
theorem hasContent_iff : mem.hasContent = true ↔
    (∃ entry, entry ∈ mem.nodes) ∨ ∃ tombstone, tombstone ∈ mem.rangeTombstones := by
  simp [hasContent, empty, eq_nil_iff_forall_not_mem]

section

variable (noted : Noted mem)
include noted

/-- `AddEntry` raises `max_seq_`. -/
theorem Noted.insertNode : Noted (mem.insertNode entry) where
  nodes other member := by
    rcases mem_insertFront.mp member with rfl | old
    · exact le_max_right _ _
    · exact le_trans (noted.nodes other old) (le_max_left _ _)
  tombstones tombstone member := le_trans (noted.tombstones tombstone member) (le_max_left _ _)
  attained := by
    change max mem.maxSeq entry.seq = 0 ∨
      (∃ other ∈ insertFront Entry.key entry mem.nodes, other.seq = max mem.maxSeq entry.seq) ∨
      ∃ tombstone ∈ mem.rangeTombstones, tombstone.seq = max mem.maxSeq entry.seq
    rcases le_total mem.maxSeq entry.seq with above | below
    · exact .inr (.inl ⟨entry, mem_insertFront.mpr (.inl rfl), (max_eq_right above).symm⟩)
    rw [max_eq_left below]
    rcases noted.attained with zero | ⟨other, member, same⟩ | range
    · exact .inl zero
    · exact .inr (.inl ⟨other, mem_insertFront.mpr (.inr member), same⟩)
    · exact .inr (.inr range)

theorem Noted.insertRangeDeletion : Noted (mem.insertRangeDeletion seq beginKey endKey) where
  nodes entry member := le_trans (noted.nodes entry member) (le_max_left _ _)
  tombstones tombstone member := by
    rcases mem_append.mp member with old | new
    · exact le_trans (noted.tombstones tombstone old) (le_max_left _ _)
    · rw [mem_singleton.mp new]
      exact le_max_right _ _
  attained := by
    change max mem.maxSeq seq = 0 ∨ (∃ entry ∈ mem.nodes, entry.seq = max mem.maxSeq seq) ∨
      ∃ tombstone ∈ mem.rangeTombstones ++ [⟨beginKey, endKey, seq⟩],
        tombstone.seq = max mem.maxSeq seq
    rcases le_total mem.maxSeq seq with above | below
    · exact .inr (.inr ⟨_, mem_append_right _ mem_cons_self, (max_eq_right above).symm⟩)
    rw [max_eq_left below]
    rcases noted.attained with zero | point | ⟨tombstone, member, same⟩
    · exact .inl zero
    · exact .inr (.inl point)
    · exact .inr (.inr ⟨tombstone, mem_append_left _ member, same⟩)

theorem Noted.applyAll : Noted (mem.applyAll seq ops) := by
  induction ops generalizing mem with
  | nil => exact noted
  | cons op _ ih =>
    refine ih ?_
    cases op with
    | value _ _ => exact noted.insertNode
    | deletion _ => exact noted.insertNode
    | rangeDeletion beginKey endKey => exact noted.insertRangeDeletion

theorem Noted.replayRecord : Noted (mem.replayRecord record) := by
  rw [replayRecord_eq]
  exact noted.applyAll

theorem Noted.replay : Noted (mem.replay records) := by
  induction records generalizing mem with
  | nil => exact noted
  | cons record _ ih => exact ih noted.replayRecord

/-- What bounds all numbers bounds `MaxSeq`. -/
theorem Noted.maxSeq_le (nodes : ∀ entry ∈ mem.nodes, entry.seq ≤ bound)
    (tombstones : ∀ tombstone ∈ mem.rangeTombstones, tombstone.seq ≤ bound) :
    mem.maxSeq ≤ bound := by
  rcases noted.attained with _ | ⟨entry, member, same⟩ | ⟨tombstone, member, same⟩
  · omega
  · exact same ▸ nodes entry member
  · exact same ▸ tombstones tombstone member

/-- A memtable with more content has no lower `MaxSeq`. -/
theorem Noted.maxSeq_mono (also : Noted more) (nodes : mem.nodes ⊆ more.nodes)
    (tombstones : mem.rangeTombstones ⊆ more.rangeTombstones) : mem.maxSeq ≤ more.maxSeq :=
  noted.maxSeq_le (fun entry member => also.nodes entry (nodes member))
    fun tombstone member => also.tombstones tombstone (tombstones member)

end

end MemTable

namespace Database

variable {db : Database}

/-- No table is above the flushed number, and no memtable that waits to be flushed is below
it. -/
structure Floored (db : Database) : Prop where
  tables : ∀ table ∈ db.tables, ∀ entry ∈ table.entries, entry.seq ≤ db.flushedSeq
  noted : db.mem.Noted
  immNoted : ∀ imm, db.imm = some imm → imm.Noted
  content : db.mem.hasContent = true → db.flushedSeq ≤ db.mem.maxSeq
  immContent : ∀ imm, db.imm = some imm → db.flushedSeq ≤ imm.maxSeq ∧
    (db.mem.hasContent = true → imm.maxSeq ≤ db.mem.maxSeq)
  inMemory : db.manifest.flushedSeq = db.flushedSeq
  below : db.flushedSeq ≤ db.manifest.lastSeq - 1

theorem floored_fresh {options : Options} : Floored (fresh options) where
  tables := nofun
  noted := MemTable.noted_new
  immNoted := nofun
  content := nofun
  immContent := nofun
  inMemory := rfl
  below := le_refl _

/-- A memtable is rotated behind a write, when it has content. -/
def RotatesContent (db : Database) : Event → Prop
  | .maintain .triggerFlush => db.imm = none → db.mem.hasContent = true
  | _ => True

instance (db : Database) : DecidablePred db.RotatesContent := by
  intro event
  unfold RotatesContent
  split <;> infer_instance

/-- The counter is above a memtable that waits. -/
theorem Floored.maxSeq_lt (floored : Floored db) (consistent : Consistent db) {imm : MemTable}
    (rotated : db.imm = some imm) : imm.maxSeq ≤ db.lastSeq - 1 := by
  have housed := consistent.toHoused
  refine (floored.immNoted imm rotated).maxSeq_le ?_ ?_
  · intro entry member
    have older := housed.older imm.nodes (.inr (.inl ⟨imm, rotated, rfl⟩)) entry member
    omega
  · intro tombstone member
    have past := housed.pastTombstones tombstone (housed.immTombstones imm rotated member)
    omega

/-- The counter is above the flushed number. -/
theorem Floored.flushedSeq_lt (floored : Floored db) (archived : Archived db) :
    db.flushedSeq ≤ db.lastSeq - 1 :=
  le_trans floored.below (Nat.sub_le_sub_right archived.lastSeq 1)

/-! ## Calls -/

theorem rangeTombstones_commit :
    (db.commit record).mem.rangeTombstones = db.mem.rangeTombstones ++ record.tombstones := by
  change (db.mem.replayRecord record).rangeTombstones = _
  rw [MemTable.replayRecord_eq, MemTable.rangeTombstones_applyAll]
  rfl

/-- What a memtable has behind a commit, it had before, or it has the record's number. -/
theorem maxSeq_commit_cases (noted : db.mem.Noted) {record : WALRecord}
    (content : (db.commit record).mem.hasContent = true) :
    db.mem.hasContent = true ∧ db.mem.maxSeq ≤ (db.commit record).mem.maxSeq ∨
      record.seq ≤ (db.commit record).mem.maxSeq := by
  have later : (db.commit record).mem.Noted := noted.replayRecord
  by_cases had : db.mem.hasContent = true
  · refine .inl ⟨had, noted.maxSeq_mono later ?_ ?_⟩
    · exact fun _ member => mem_nodes_commit.mpr (.inr member)
    · rw [rangeTombstones_commit]
      exact subset_append_left _ _
  refine .inr ?_
  rcases MemTable.hasContent_iff.mp content with ⟨entry, member⟩ | ⟨tombstone, member⟩
  · have bound := later.nodes entry member
    rcases mem_nodes_commit.mp member with new | old
    · rwa [WALRecord.seq_of_mem_points new] at bound
    · exact absurd (MemTable.hasContent_iff.mpr (.inl ⟨entry, old⟩)) had
  have bound := later.tombstones tombstone member
  rw [rangeTombstones_commit] at member
  rcases mem_append.mp member with old | new
  · exact absurd (MemTable.hasContent_iff.mpr (.inr ⟨tombstone, old⟩)) had
  · rwa [WALRecord.seq_of_mem_tombstones new] at bound

section

variable (floored : Floored db)
include floored

/-- A write enters above the flushed number. -/
theorem Floored.call (consistent : Consistent db) (archived : Archived db)
    {call : Call} : Floored (db.call call) := by
  rcases db.call_cases call with ⟨same, _⟩ | ⟨record, _, _, written⟩
  · rwa [same]
  rw [written]
  generalize (prepareOps db.options call.ops db.vlog db.disk.vlogs).2 = log
  have grown := fun content => @maxSeq_commit_cases (db.claim.withVLog log) floored.noted record
    content
  have floor := floored.flushedSeq_lt archived
  exact
    { tables := floored.tables
      noted := floored.noted.replayRecord
      immNoted := floored.immNoted
      content := by
        intro content
        rcases grown content with ⟨had, above⟩ | _
        · exact le_trans (floored.content had) above
        · change db.flushedSeq ≤ _
          omega
      immContent := by
        intro imm rotated
        refine ⟨(floored.immContent imm rotated).1, ?_⟩
        intro content
        rcases grown content with ⟨had, above⟩ | _
        · exact le_trans ((floored.immContent imm rotated).2 had) above
        · have low := floored.maxSeq_lt consistent rotated
          omega
      inMemory := floored.inMemory
      below := floored.below }

/-! ## Background steps -/

theorem Floored.triggerFlush
    (rotates : db.imm = none → db.mem.hasContent = true) : Floored db.triggerFlush := by
  unfold Database.triggerFlush
  split
  · exact floored
  rename_i free
  have content := rotates (by simpa using free)
  exact
    { floored with
      noted := MemTable.noted_new
      immNoted := by
        rintro _ ⟨⟩
        exact floored.noted
      content := nofun
      immContent := by
        rintro _ ⟨⟩
        exact ⟨floored.content content, nofun⟩ }

/-- The flushed number becomes that of the waiting memtable. -/
theorem Floored.flushWrite (consistent : Consistent db) : Floored (db.flushWrite sorter) := by
  rcases db.flushWrite_cases sorter with same | ⟨mem, rotated, written⟩
  · rw [same]
    exact floored
  rw [written]
  have noted := floored.immNoted mem rotated
  obtain ⟨above, order⟩ := floored.immContent mem rotated
  refine { floored with
    tables := ?_
    content := order
    immContent := ?_
    inMemory := rfl
    below := floored.maxSeq_lt consistent rotated }
  · intro table member entry inside
    have present : table ∈ (db.writeLevel0Table sorter mem).tables := member
    rcases (mem_tables_of_level0 rfl).mp present with old | rfl
    · exact le_trans (floored.tables table old entry inside) above
    rw [TableBuilder.entries_build] at inside
    rcases (consistent.toHoused.mem_flushEntries_imm rotated sorter entry).mp inside with
      point | ⟨tombstone, held, rfl⟩
    · exact noted.nodes entry point
    · exact noted.tombstones tombstone held
  · intro _ same
    obtain rfl := Option.some.inj (rotated.symm.trans same)
    exact ⟨le_refl _, order⟩

theorem Floored.flushRelease : Floored db.flushRelease := by
  unfold Database.flushRelease
  split
  · exact { floored with immNoted := nofun, immContent := nofun }
  · exact floored

end

theorem flushedSeq_editManifest {manifest : Manifest} :
    (editManifest manifest outputLevel added inputs).flushedSeq = manifest.flushedSeq := by
  refine foldlRecOn (motive := (Manifest.flushedSeq · = manifest.flushedSeq)) _ _
    (foldlRecOn (motive := (Manifest.flushedSeq · = manifest.flushedSeq)) _ _ rfl ?_) ?_
  · intro _ same _ _
    unfold Manifest.addFile
    split <;> exact same
  · intro _ same _ _
    unfold Manifest.removeFile
    split <;> exact same

/-- A round brings versions of its inputs only. -/
theorem Floored.finishRound (floored : Floored db) (consistent : Consistent db)
    (archived : Archived db) (round : Succeeds db level picked rest range) :
    Floored (db.finishRound level picked rest range) := by
  have merged := consistent.toHoused.merged_round round
  exact
    { floored with
      tables := by
        intro table member entry inside
        rcases mem_tables_finishRound round.front member with new | old
        · have input := merged.mem_inputs (mem_versionsOf.mpr ⟨table, new, inside⟩)
          obtain ⟨source, in_inputs, held⟩ := mem_versionsOf.mp input
          exact floored.tables source (mem_tables_of_input round.inner round.front in_inputs) entry
            held
        · exact floored.tables table old entry inside
      inMemory := flushedSeq_editManifest.trans floored.inMemory
      below := floored.flushedSeq_lt archived }

/-- Each background step keeps the floor. -/
theorem Floored.maintain (floored : Floored db) (consistent : Consistent db)
    (archived : Archived db) (numbered : Numbered db) {step : Maintenance}
    (orderly : db.Orderly step) (rotates : db.RotatesContent (.maintain step)) :
    Floored (db.maintain sorter step) := by
  have turn := turn_maintain numbered orderly sorter
  generalize db.maintain sorter step = later at turn
  cases turn with
  | same => exact floored
  | rotated rotation =>
    subst rotation
    exact floored.triggerFlush rotates
  | flushed => exact floored.flushWrite consistent
  | released => exact floored.flushRelease
  | claimed _ | failed _ _ _ => exact { floored with }
  | merged round _ _ _ => exact floored.finishRound consistent archived round

/-! ## Restarts -/

/-- The manifest that an opening finds is the one in memory, or there was none and there is no
table. -/
theorem Archived.manifest_cases (archived : Archived db) {killed : Disk}
    (survived : Killed db killed) {manifest : Manifest}
    (loaded : killed.metadata = .ok (db.levels, manifest)) :
    manifest = db.manifest ∨ manifest.flushedSeq = 0 ∧ db.tables = [] := by
  unfold Disk.metadata at loaded
  rw [survived.manifest] at loaded
  rcases archived.onDisk with onDisk | ⟨absent, no_files⟩
  · rw [onDisk] at loaded
    dsimp only at loaded
    split at loaded
    · cases loaded
    · exact .inl (Prod.mk.inj (Except.ok.inj loaded)).2.symm
  rw [absent] at loaded
  obtain ⟨_, rfl⟩ := Prod.mk.inj (Except.ok.inj loaded)
  exact .inr ⟨rfl, flatMap_eq_nil_iff.mpr fun level _ => archived.levels_nil (no_files level)⟩

/-- The manifest restores the number, and the replayed memtable is newer. -/
theorem Floored.restart (floored : Floored db) (operable : Operable db)
    (recoverable : db.Recoverable killed) : Floored (db.restart killed) := by
  obtain ⟨manifest, loaded, _⟩ := operable.archived.metadata recoverable.survived
  have opened := @openDatabase_eq killed db.options _ _ loaded
  obtain ⟨_, reopened, rebuilt⟩ := operable.consistent.reopens operable.numbered
    operable.archived operable.journaled recoverable.logged recoverable.ordered recoverable.survived
  obtain rfl := Except.ok.inj (opened.symm.trans reopened)
  have restarted : db.restart killed = openedWith db.options killed db.levels manifest := by
    unfold Database.restart
    rw [opened]
  rw [restarted]
  have noted : (openedWith db.options killed db.levels manifest).mem.Noted :=
    MemTable.noted_new.replay
  have below : manifest.flushedSeq ≤ manifest.lastSeq - 1 ∧ manifest.flushedSeq ≤ db.flushedSeq ∧
      ∀ table ∈ db.tables, ∀ entry ∈ table.entries, entry.seq ≤ manifest.flushedSeq := by
    rcases operable.archived.manifest_cases recoverable.survived loaded with rfl | ⟨zero, none⟩
    · rw [floored.inMemory]
      exact ⟨floored.below, le_refl _, floored.tables⟩
    · rw [zero, none]
      exact ⟨Nat.zero_le _, Nat.zero_le _, nofun⟩
  -- What is replayed was in one of the memtables.
  have active : db.mem.maxSeq ≤ (openedWith db.options killed db.levels manifest).mem.maxSeq :=
    floored.noted.maxSeq_mono noted
      (fun _ member => rebuilt.mem_nodes.mpr (.inl member))
      (fun tombstone member => (rebuilt.active tombstone).mpr (.inl member))
  have waiting : ∀ imm, db.imm = some imm →
      imm.maxSeq ≤ (openedWith db.options killed db.levels manifest).mem.maxSeq :=
    fun imm rotated => (floored.immNoted imm rotated).maxSeq_mono noted
      (fun _ member => rebuilt.mem_nodes.mpr (.inr ⟨imm, rotated, member⟩))
      (fun tombstone member => (rebuilt.active tombstone).mpr (.inr ⟨imm, rotated, member⟩))
  have from_imm : ∀ imm, db.imm = some imm →
      manifest.flushedSeq ≤ (openedWith db.options killed db.levels manifest).mem.maxSeq :=
    fun imm rotated => below.2.1.trans
      ((floored.immContent imm rotated).1.trans (waiting imm rotated))
  have from_mem : db.mem.hasContent = true →
      manifest.flushedSeq ≤ (openedWith db.options killed db.levels manifest).mem.maxSeq :=
    fun content => below.2.1.trans ((floored.content content).trans active)
  exact
    { tables := below.2.2
      noted := noted
      immNoted := nofun
      content := by
        intro content
        rcases MemTable.hasContent_iff.mp content with ⟨entry, member⟩ | ⟨tombstone, member⟩
        · rcases rebuilt.mem_nodes.mp member with old | ⟨imm, rotated, _⟩
          · exact from_mem (MemTable.hasContent_iff.mpr (.inl ⟨entry, old⟩))
          · exact from_imm imm rotated
        · rcases (rebuilt.active tombstone).mp member with old | ⟨imm, rotated, _⟩
          · exact from_mem (MemTable.hasContent_iff.mpr (.inr ⟨tombstone, old⟩))
          · exact from_imm imm rotated
      immContent := nofun
      inMemory := rfl
      below := below.1 }

/-! ## Runs -/

/-- In a lawful run the invariants hold, the map is answered, and the tables stay below the
flushed number. -/
theorem floored_run {options : Options} (lawful : Meets (step sorter) Lawful (fresh options) events)
    (rotating : Meets (step sorter) RotatesContent (fresh options) events) :
    Answers (run (step sorter) (fresh options) events) (Store.replay events) ∧
      Floored (run (step sorter) (fresh options) events) := by
  refine ⟨(answers_fresh options).run lawful, ?_⟩
  have both : Operable (run (step sorter) (fresh options) events) ∧
      Floored (run (step sorter) (fresh options) events) := by
    refine @Meets.invariant _ _ _ _ _ (fun db => Operable db ∧ Floored db) _
      (lawful.and rotating) ⟨operable_fresh, floored_fresh⟩ ?_
    rintro _ event ⟨operable, floored⟩ ⟨lawful, rotates⟩
    cases event with
    | call _ => exact ⟨operable.call lawful, floored.call operable.consistent operable.archived⟩
    | maintain _ =>
      exact ⟨(operable.maintain lawful sorter).1, floored.maintain operable.consistent
        operable.archived operable.numbered lawful.orderly rotates⟩
    | crash _ => exact ⟨(operable.restart lawful).1, floored.restart operable lawful⟩
  exact both.2

end Database

end LightKV
