import LightKV.Archive
import LightKV.RecoveryCrash
import LightKV.Tombstones

/-!
# A kill and the next opening

What a kill leaves are the logs, the tables that the manifest names, the manifest and the
value log. Opening the directory arranges the levels as they were and replays the logs of
both memtables into one. The two logs are replayed in the order of their names as strings,
and not of their numbers: `wal-10.log` comes in front of `wal-9.log`. So the replay puts
the versions of the active memtable in front of those of the immutable one only if the
names are in order, or if no key is in both memtables (`ReplayOrdered`).

Under these conditions the opened database holds the same versions, covers them by the
same range tombstones and gives the same answers.
-/

namespace LightKV

open Versions Levels Function Disk MemTable
open List hiding head

/-! ## Loading the levels -/

section Load

variable {table? : Nat → Option SSTable} {levels : Nat → List SSTable}

theorem loadLevel_eq {level : Nat} {order : List SSTable}
    (found : ∀ table ∈ order, table? table.fileId = some table) :
    loadLevel table? level (order.map SSTable.metaData) levels =
      .ok (order.foldl (fun levels table => insertIntoLevel levels level table) levels) := by
  induction order generalizing levels with
  | nil => rfl
  | cons table _ ih =>
    have here : table? table.metaData.fileId = some table := found table mem_cons_self
    rw [map_cons, loadLevel, here]
    exact ih fun other member => found other (mem_cons_of_mem _ member)

/-- Inserting tables into an empty level arranges it. -/
theorem foldl_insertIntoLevel_arranged (order : List SSTable) (empty : levels level = []) :
    order.foldl (fun levels table => insertIntoLevel levels level table) levels =
      update levels level (arranged level order) := by
  by_cases first : level = 0
  · subst first
    have appended : ∀ (order : List SSTable) (levels : Nat → List SSTable),
        order.foldl (fun levels table => insertIntoLevel levels 0 table) levels =
          update levels 0 (levels 0 ++ order) := by
      intro order
      induction order with
      | nil => simp
      | cons _ _ ih =>
        intro _
        rw [foldl_cons, ih, insertIntoLevel, if_pos rfl, update_self, update_idem, append_assoc]
        rfl
    rw [appended, empty]
    rfl
  · rw [Database.foldl_insertIntoLevel first, empty, arranged, if_neg first]

/-- Loading levels that are still empty arranges each of them as it is listed. -/
theorem loadLevels_eq {files : Nat → List FileMetaData} {target : Nat → List SSTable}
    (listed : ∀ level, ∃ order, files level = order.map SSTable.metaData ∧ target level =
      arranged level order)
    (found : ∀ level, ∀ table ∈ target level, table? table.fileId = some table)
    (order : List Nat) (distinct : order.Nodup) (empty : ∀ level ∈ order, levels level = []) :
    loadLevels table? files order levels =
      .ok fun level => if level ∈ order then target level else levels level := by
  induction order generalizing levels with
  | nil => simp [loadLevels]
  | cons level _ ih =>
    obtain ⟨fresh, rest⟩ := nodup_cons.mp distinct
    obtain ⟨tables, files_eq, target_eq⟩ := listed level
    have present : ∀ table ∈ tables, table? table.fileId = some table := by
      intro table member
      refine found level table ?_
      rw [target_eq]
      exact mem_arranged.mpr member
    rw [loadLevels, files_eq, loadLevel_eq present,
      foldl_insertIntoLevel_arranged _ (empty level mem_cons_self), ← target_eq]
    dsimp only
    rw [ih rest]
    · congr 1
      funext index
      by_cases here : index = level
      · subst here
        rw [if_neg fresh, update_self, if_pos mem_cons_self]
      · rw [update_of_ne here]
        simp only [mem_cons, here, false_or]
    · intro other member
      have different : other ≠ level := fun same => fresh (same ▸ member)
      rw [update_of_ne different]
      exact empty other (mem_cons_of_mem _ member)

end Load

namespace Database

variable {db : Database} {killed : Disk}

/-! ## What a kill leaves -/

/-- A directory that a kill of the process leaves: the logs and the manifest as they were,
at least the tables and the value log. No table ever has the number zero. -/
structure Killed (db : Database) (killed : Disk) : Prop where
  wals : killed.wals = db.disk.wals
  manifest : killed.manifest = db.disk.manifest
  tables : ∀ fileId table, db.disk.table? fileId = some table → killed.table? fileId = some table
  zero : killed.table? 0 = none
  vlogs : LogExtends db.disk.vlogs killed.vlogs

/-- The logs are replayed in their order, or no key is in both memtables. -/
def ReplayOrdered (db : Database) : Prop :=
  ∀ imm, db.imm = some imm → db.walPath < db.immWalPath →
    ∀ key, db.mem.versions key = [] ∨ imm.versions key = []

/-- Loading the files of the manifest arranges the levels as they are. -/
theorem Archived.loads (archived : Archived db) {table? : Nat → Option SSTable}
    (present : ∀ level, ∀ table ∈ db.levels level, table? table.fileId = some table) :
    loadLevels table? db.manifest.files (range numLevels) (fun _ => []) = .ok db.levels := by
  have loaded : loadLevels table? db.manifest.files (range numLevels) (fun _ => []) =
      .ok fun level => if level ∈ range numLevels then db.levels level else [] :=
    loadLevels_eq archived.listed present (range numLevels) nodup_range (fun _ _ => rfl)
  have all : (fun level => if level ∈ range numLevels then db.levels level else []) =
      db.levels := by
    funext level
    split
    · rfl
    · rename_i beyond
      rw [mem_range, not_lt] at beyond
      exact (archived.deep level beyond).symm
  rw [loaded, all]

theorem Archived.levels_nil (archived : Archived db) (no_files : db.manifest.files level = []) :
    db.levels level = [] := by
  obtain ⟨_, files, arrangement⟩ := archived.listed level
  rw [no_files, eq_comm, map_eq_nil_iff] at files
  rw [arrangement, files, arranged]
  split <;> rfl

/-- The directory leads to the levels of the database; the manifest has the same files and
counters that bound its tables. -/
theorem Archived.metadata (archived : Archived db) (survived : Killed db killed) :
    ∃ manifest, killed.metadata = .ok (db.levels, manifest) ∧
      (killed.manifest = some manifest ∨
        killed.manifest = none ∧ ∀ level, manifest.files level = []) ∧
      manifest.files = db.manifest.files ∧ 0 < manifest.nextFileId ∧
      (∀ level, ∀ table ∈ db.levels level, table.fileId < manifest.nextFileId) ∧
      manifest.lastSeq ≤ db.lastSeq ∧
      ∀ level, ∀ table ∈ db.levels level, ∀ entry ∈ table.entries,
        entry.seq < manifest.lastSeq := by
  unfold Disk.metadata
  rw [survived.manifest]
  rcases archived.onDisk with onDisk | ⟨absent, no_files⟩
  · rw [onDisk]
    dsimp only
    rw [archived.loads fun level table member =>
      survived.tables _ _ (archived.kept level table member)]
    exact ⟨db.manifest, rfl, .inl rfl, rfl, archived.positive, archived.numbers,
      archived.lastSeq, archived.older⟩
  · have no_tables := fun level => archived.levels_nil (no_files level)
    have scanned : scanTables killed.table? (killed.tables.length + 1) 0 = [] := by
      rw [scanTables, survived.zero]
    have same_files : db.manifest.files = fun _ => [] := funext no_files
    rw [absent]
    rw [scanned]
    refine ⟨_, congrArg Except.ok (Prod.ext ?_ rfl), .inr ⟨rfl, fun _ => rfl⟩,
      same_files.symm, one_pos, ?_, Nat.zero_le _, ?_⟩
    · funext level
      dsimp only
      rw [no_tables level]
      by_cases first : level = 0
      · rw [first, update_self]
      · rw [update_of_ne first]
    · intro level _ member
      rw [no_tables level] at member
      cases member
    · intro level _ member
      rw [no_tables level] at member
      cases member

/-! ## The replayed memtable -/

variable {active waiting : List WALRecord}

/-- The logs hold the records of both memtables, in one order or the other. -/
theorem Journal.replayed_cases (journal : Journal db active waiting)
    (wals : killed.wals = db.disk.wals) :
    (db.imm = none ∧ killed.logged = active) ∨
      db.imm.isSome = true ∧ (db.immWalPath < db.walPath ∧ killed.logged = waiting ++ active ∨
        db.walPath < db.immWalPath ∧ killed.logged = active ++ waiting) := by
  have files := journal.files
  rw [← wals] at files
  unfold Disk.logged
  cases pending : db.imm with
  | none =>
    rw [pending] at files
    have only : killed.walFiles = [⟨db.walPath, active⟩] := by
      apply walFiles_eq (pairwise_singleton _ _)
      intro file
      rw [files file]
      simp
    rw [only]
    exact .inl ⟨rfl, by simp⟩
  | some _ =>
    rw [pending] at files
    obtain ⟨apart, _⟩ := journal.immWalPath (by rw [pending]; rfl)
    refine .inr ⟨rfl, ?_⟩
    rcases lt_or_gt_of_ne apart with first | last
    · have both : killed.walFiles = [⟨db.immWalPath, waiting⟩, ⟨db.walPath, active⟩] := by
        apply walFiles_eq (pairwise_pair.mpr first)
        intro file
        rw [files file]
        simp [or_comm]
      rw [both]
      exact .inl ⟨first, by simp⟩
    · have both : killed.walFiles = [⟨db.walPath, active⟩, ⟨db.immWalPath, waiting⟩] := by
        apply walFiles_eq (pairwise_pair.mpr last)
        intro file
        rw [files file]
        simp
      rw [both]
      exact .inr ⟨last, by simp⟩

/-- The versions of a key in the immutable memtable. -/
def immVersions (db : Database) (key : Bytes) : List Entry :=
  (db.imm.map fun imm => imm.versions key).getD []

theorem immVersions_of_none (none : db.imm = none) (key : Bytes) : db.immVersions key = [] := by
  rw [immVersions, none, Option.map_none, Option.getD_none]

theorem versions_replay_new (records : List WALRecord) (key : Bytes) :
    (MemTable.new.replay records).versions key =
      (ofKey Entry.key key (loggedPoints records)).reverse := by
  rw [versions_replay, versions_new, append_nil]

/-- The replayed memtable has the versions of the active memtable in front of those of the
immutable one. -/
theorem Journal.versions_replayed (journal : Journal db active waiting) (logged : Logged db)
    (ordered : ReplayOrdered db) (wals : killed.wals = db.disk.wals) (key : Bytes) :
    (MemTable.new.replay killed.logged).versions key =
      db.mem.versions key ++ db.immVersions key := by
  obtain ⟨mem, imm⟩ := journal.logged_iff.mp logged
  have append : ∀ first second : List WALRecord,
      (new.replay (first ++ second)).versions key =
        (new.replay second).versions key ++ (new.replay first).versions key := by
    intro first second
    have points : loggedPoints (first ++ second) = loggedPoints first ++ loggedPoints second :=
      flatMap_append
    rw [versions_replay_new, versions_replay_new, versions_replay_new, points, ofKey_append,
      reverse_append]
  unfold immVersions
  rcases journal.replayed_cases wals with ⟨none, records⟩ | ⟨pending, both⟩
  · rw [records, ← mem, none]
    simp
  obtain ⟨other, pending⟩ := Option.isSome_iff_exists.mp pending
  rw [pending]
  have waited := imm other pending
  rcases both with ⟨_, records⟩ | ⟨reversed, records⟩
  · rw [records, append, ← mem, ← waited]
    rfl
  · rw [records, append, ← mem, ← waited]
    rcases ordered other pending reversed key with no_active | no_waiting
    · simp [no_active]
    · simp [no_waiting]

/-- The replayed memtable has the tombstones of both memtables. -/
theorem Journal.tombstones_replayed (journal : Journal db active waiting) (logged : Logged db)
    (wals : killed.wals = db.disk.wals) (tombstone : RangeTombstone) :
    tombstone ∈ loggedTombstones killed.logged ↔
      tombstone ∈ db.mem.rangeTombstones ∨
        ∃ imm, db.imm = some imm ∧ tombstone ∈ imm.rangeTombstones := by
  obtain ⟨mem, imm⟩ := journal.logged_iff.mp logged
  have replay : ∀ records : List WALRecord,
      (new.replay records).rangeTombstones = loggedTombstones records := by
    intro _
    rw [rangeTombstones_replay]
    rfl
  have append : ∀ first second : List WALRecord,
      loggedTombstones (first ++ second) = loggedTombstones first ++ loggedTombstones second :=
    fun _ _ => flatMap_append
  rcases journal.replayed_cases wals with ⟨none, records⟩ | ⟨pending, both⟩
  · rw [records, ← replay, ← mem, none]
    simp
  obtain ⟨other, pending⟩ := Option.isSome_iff_exists.mp pending
  have waited := imm other pending
  rw [pending]
  rcases both with ⟨_, records⟩ | ⟨_, records⟩ <;>
  · rw [records, append, ← replay, ← replay, ← mem, ← waited]
    simp [or_comm]

/-! ## The opened database -/

/-- What an opening makes of the database whose directory it finds. -/
structure Rebuilt (db again : Database) : Prop where
  levels : again.levels = db.levels
  versions : ∀ key, again.mem.versions key = db.mem.versions key ++ db.immVersions key
  imm : again.imm = none
  flushing : again.flushing = false
  tombstones : ∀ tombstone, tombstone ∈ again.rangeTombstones ↔ db.Holds tombstone
  active : ∀ tombstone, tombstone ∈ again.mem.rangeTombstones ↔
    tombstone ∈ db.mem.rangeTombstones ∨
      ∃ imm, db.imm = some imm ∧ tombstone ∈ imm.rangeTombstones
  claimed : ∀ entry ∈ again.mem.nodes, entry.seq < again.lastSeq
  tablesClaimed : TablesClaimed again
  past : ∀ tombstone ∈ again.rangeTombstones, tombstone.seq < again.lastSeq
  lastSeq : again.lastSeq ≤ db.lastSeq
  sound : again.vlog.Sound again.disk.vlogs
  extended : LogExtends db.disk.vlogs again.disk.vlogs

namespace Rebuilt

variable {again : Database}

section

variable (rebuilt : Rebuilt db again) {entry : Entry}
include rebuilt

theorem tables_eq : again.tables = db.tables := by
  unfold tables
  rw [rebuilt.levels]

theorem mem_nodes :
    entry ∈ again.mem.nodes ↔
      entry ∈ db.mem.nodes ∨ ∃ imm, db.imm = some imm ∧ entry ∈ imm.nodes := by
  rw [mem_nodes_iff, rebuilt.versions, mem_append, mem_versions, immVersions]
  cases db.imm with
  | none => simp
  | some _ => simp [mem_versions]

theorem mem_run (member : run ∈ again.runs) (inside : entry ∈ run) :
    ∃ old ∈ db.runs, entry ∈ old ∧ old ⊆ run := by
  rcases member with rfl | ⟨_, impossible, _⟩ | stored
  · rcases rebuilt.mem_nodes.mp inside with active | ⟨imm, pending, waiting⟩
    · exact ⟨db.mem.nodes, .inl rfl, active, fun _ held => rebuilt.mem_nodes.mpr (.inl held)⟩
    · exact ⟨imm.nodes, .inr (.inl ⟨imm, pending, rfl⟩), waiting,
        fun _ held => rebuilt.mem_nodes.mpr (.inr ⟨imm, pending, held⟩)⟩
  · rw [rebuilt.imm] at impossible
    cases impossible
  · rw [rebuilt.tables_eq] at stored
    exact ⟨run, .inr (.inr stored), inside, List.Subset.refl run⟩

theorem points_eq : again.points = db.points := by
  ext _
  constructor
  · rintro ⟨user, _, member, inside⟩
    obtain ⟨old, in_runs, held, _⟩ := rebuilt.mem_run member inside
    exact ⟨user, old, in_runs, held⟩
  rintro ⟨user, run, rfl | ⟨imm, pending, rfl⟩ | stored, inside⟩
  · exact mem_points_of_mem user (rebuilt.mem_nodes.mpr (.inl inside))
  · exact mem_points_of_mem user (rebuilt.mem_nodes.mpr (.inr ⟨imm, pending, inside⟩))
  · refine ⟨user, run, .inr (.inr ?_), inside⟩
    rw [rebuilt.tables_eq]
    exact stored

theorem unwrap_eq (consistent : Consistent db) (member : entry ∈ db.points) :
    again.vlog.unwrap again.disk.vlogs entry.value = db.vlog.unwrap db.disk.vlogs entry.value :=
  VLogManager.unwrap_extends _ _ (consistent.resident entry member) rebuilt.extended

theorem older : ∀ run ∈ again.runs, ∀ entry ∈ run, entry.seq < again.lastSeq := by
  rintro _ (rfl | ⟨_, impossible, _⟩ | ⟨table, present, rfl⟩) entry inside
  · exact rebuilt.claimed entry inside
  · rw [rebuilt.imm] at impossible
    cases impossible
  · exact rebuilt.tablesClaimed table present entry inside

/-- The head of the stack of a key is the one a reader found before. -/
theorem memFirst (consistent : Consistent db) (user : UserKey key)
    (stack : again.mem.versions key = head :: rest) :
    Newest Entry.key Entry.rank again.points key head := by
  rw [rebuilt.points_eq]
  rw [rebuilt.versions key] at stack
  cases active : db.mem.versions key with
  | cons newest others =>
    rw [active] at stack
    rw [← (cons.inj stack).1]
    exact consistent.memFirst key user newest others active
  | nil =>
    rw [active, immVersions] at stack
    cases pending : db.imm with
    | none =>
      rw [pending] at stack
      cases stack
    | some imm =>
      rw [pending] at stack
      exact consistent.immFirst imm pending key user active head rest stack

theorem closed (consistent : Consistent db) : TieClosed again.runs := by
  intro _ in_runs _ in_others entry inside above held same_key same_seq lower
  obtain ⟨old, old_run, old_inside, subset⟩ := rebuilt.mem_run in_runs inside
  obtain ⟨old_other, other_run, old_held, _⟩ := rebuilt.mem_run in_others held
  obtain ⟨found, in_old, key_eq, rank_eq⟩ := consistent.closed old old_run old_other other_run
    entry old_inside above old_held same_key same_seq lower
  exact ⟨found, subset in_old, key_eq, rank_eq⟩

theorem consistent (before : Consistent db) : Consistent again where
  older := rebuilt.older
  wellFormed := by
    rw [rebuilt.tables_eq]
    exact before.wellFormed
  level := by
    rw [rebuilt.levels]
    exact before.level
  closed := rebuilt.closed before
  memFirst _ user _ _ stack := rebuilt.memFirst before user stack
  immFirst imm pending := by
    rw [rebuilt.imm] at pending
    cases pending
  coherent := by
    rw [rebuilt.points_eq]
    intro first in_first second in_second same_key same_rank value
    rw [rebuilt.unwrap_eq before in_first, rebuilt.unwrap_eq before in_second]
    exact before.coherent first in_first second in_second same_key same_rank value
  memTombstones tombstone member := (rebuilt.tombstones tombstone).mpr
    ((rebuilt.active tombstone).mp member |>.imp_right .inl)
  immTombstones imm pending := by
    rw [rebuilt.imm] at pending
    cases pending
  bounded := le_trans rebuilt.lastSeq before.bounded
  memKeys entry member := by
    rcases rebuilt.mem_nodes.mp member with active | ⟨imm, pending, waiting⟩
    · exact before.memKeys entry active
    · exact before.immKeys imm pending entry waiting
  immKeys imm pending := by
    rw [rebuilt.imm] at pending
    cases pending
  stored table present entry inside := by
    rw [rebuilt.tables_eq] at present
    rcases before.stored table present entry inside with user | ⟨tombstone, _, rfl⟩
    · exact .inl user
    · exact .inr ⟨tombstone,
        (rebuilt.tombstones tombstone).mpr (.inr (.inr ⟨table, present, inside⟩)), rfl⟩
  pastTombstones := rebuilt.past
  idle _ := rebuilt.flushing
  flushed flushing := by
    rw [rebuilt.flushing] at flushing
    cases flushing
  resident := by
    rw [rebuilt.points_eq]
    exact fun entry member => (before.resident entry member).mono rebuilt.extended
  sound := rebuilt.sound

/-- A remembered tombstone is dominated by one of the opened database, so versions resolve
as they did. -/
theorem resolve_eq (before : Consistent db) (remembered : Remembered db)
    (member : entry ∈ db.points) : again.resolve entry = db.resolve entry := by
  have forth : ∀ tombstone ∈ db.rangeTombstones, ∃ wide ∈ again.rangeTombstones,
      wide.Dominates tombstone := by
    intro tombstone registered
    obtain ⟨wide, holding, dominates⟩ := remembered.registered tombstone registered
    exact ⟨wide, (rebuilt.tombstones wide).mpr holding, dominates⟩
  have back : ∀ tombstone ∈ again.rangeTombstones, ∃ wide ∈ db.rangeTombstones,
      wide.Dominates tombstone := by
    intro tombstone held
    exact ⟨tombstone, before.registered_of_holds ((rebuilt.tombstones tombstone).mp held),
      .refl⟩
  have covers := covered_eq_of_dominated forth back
    (fun tombstone registered => le_of_lt (before.pastTombstones tombstone registered))
    (fun tombstone held => le_of_lt (rebuilt.past tombstone held)) entry.key entry.seq
  unfold resolve resolveAt answerValue
  rw [covers, rebuilt.unwrap_eq before member]

/-- The opened database gives the same answers. -/
theorem answers (before : Consistent db) (remembered : Remembered db) (user : UserKey key) :
    again.get key = db.get key := by
  refine before.get_eq_of_covers (rebuilt.consistent before).toReadable ?_ ?_ user
  · rw [rebuilt.points_eq]
    exact Covers.refl
  · rw [rebuilt.points_eq]
    exact fun _ member => rebuilt.resolve_eq before remembered member

theorem remembered : Remembered again := by
  refine ⟨?_, ?_⟩
  · intro tombstone member
    refine ⟨tombstone, ?_, .refl⟩
    rcases (rebuilt.tombstones tombstone).mp member with active | waiting | ⟨table, present, stored⟩
    · exact .inl ((rebuilt.active tombstone).mpr (.inl active))
    · exact .inl ((rebuilt.active tombstone).mpr (.inr waiting))
    · refine .inr (.inr ⟨table, ?_, stored⟩)
      rw [rebuilt.tables_eq]
      exact present
  · intro flushing
    rw [rebuilt.flushing] at flushing
    cases flushing

end

end Rebuilt

/-- The tombstones that an opening finds in the tables are those stored there. -/
theorem mem_loadTombstones (housed : Housed db) :
    tombstone ∈ loadTombstones db.levels ↔ db.TableHolds tombstone := by
  have listed : tombstone ∈ loadTombstones db.levels ↔
      ∃ table ∈ db.tables, tombstone ∈ table.rangeTombstones := by
    unfold loadTombstones tables
    simp only [mem_flatMap]
    constructor
    · rintro ⟨level, inner, table, member, held⟩
      exact ⟨table, ⟨level, inner, member⟩, held⟩
    · rintro ⟨table, ⟨level, inner, member⟩, held⟩
      exact ⟨level, inner, table, member, held⟩
  rw [listed]
  refine exists_congr fun table => and_congr_right fun present => ?_
  rw [(housed.wellFormed table present).mem_rangeTombstones]
  constructor
  · rintro ⟨entry, inside, reserved_key, rfl⟩
    rcases housed.stored table present entry inside with user | ⟨_, _, rfl⟩
    · rw [user.2] at reserved_key
      cases reserved_key
    · exact inside
  · exact fun stored => ⟨_, stored, SSTable.reserved_tombstoneEntry, rfl⟩

theorem Journal.nextSeq_replayed_le (journal : Journal db active waiting)
    (wals : killed.wals = db.disk.wals) : nextSeq killed.logged ≤ db.lastSeq := by
  have bound : ∀ record ∈ killed.logged, record.seq < db.lastSeq := by
    intro _ member
    apply journal.claimed
    rcases journal.replayed_cases wals with ⟨_, records⟩ | ⟨_, ⟨_, records⟩ | ⟨_, records⟩⟩
    · rw [records] at member
      exact mem_append_left _ member
    · rw [records, mem_append] at member
      exact mem_append.mpr member.symm
    · rw [records] at member
      exact member
  exact foldlRecOn (motive := (· ≤ db.lastSeq)) _ _ (Nat.zero_le _)
    fun _ below record member => max_le below (bound record member)

/-- What holds of the database behind an opening. -/
structure Recovered (db again : Database) : Prop where
  options : again.options = db.options
  consistent : Consistent again
  numbered : Numbered again
  archived : Archived again
  journaled : Journaled again
  remembered : Remembered again
  points : again.points = db.points
  tombstones : again.rangeTombstones ⊆ db.rangeTombstones
  answers : ∀ key, UserKey key → again.get key = db.get key

theorem openDatabase_eq {options : Options} {levels : Nat → List SSTable} {manifest : Manifest}
    (loaded : killed.metadata = .ok (levels, manifest)) :
    openDatabase options killed = .ok (openedWith options killed levels manifest) := by
  unfold openDatabase
  rw [loaded]

section Opened

variable {options : Options} {manifest : Manifest}

/-- The levels are arranged as they were, and the logs hold the rest. -/
theorem rebuilt_openedWith (consistent : Consistent db) (journal : Journal db active waiting)
    (logged : Logged db) (ordered : ReplayOrdered db) (survived : Killed db killed)
    (lastSeq : manifest.lastSeq ≤ db.lastSeq)
    (older : ∀ level, ∀ table ∈ db.levels level, ∀ entry ∈ table.entries,
      entry.seq < manifest.lastSeq) :
    Rebuilt db (openedWith options killed db.levels manifest) where
  levels := rfl
  versions := journal.versions_replayed logged ordered survived.wals
  imm := rfl
  flushing := rfl
  tombstones tombstone := by
    rw [Holds, ← or_assoc, ← journal.tombstones_replayed logged survived.wals,
      ← mem_loadTombstones consistent.toHoused]
    exact mem_append
  active tombstone := by
    rw [← journal.tombstones_replayed logged survived.wals]
    change tombstone ∈ (new.replay killed.logged).rangeTombstones ↔ _
    rw [rangeTombstones_replay]
    rfl
  claimed entry member := by
    rcases mem_nodes_replay.mp member with point | impossible
    · obtain ⟨_, in_records, inside⟩ := mem_flatMap.mp point
      rw [WALRecord.seq_of_mem_points inside]
      exact lt_of_lt_of_le (seq_lt_nextSeq in_records) (le_max_right _ _)
    · cases impossible
  tablesClaimed table present entry inside := by
    obtain ⟨level, _, member⟩ := mem_tables.mp present
    exact lt_of_lt_of_le (older level table member entry inside) (le_max_left _ _)
  past tombstone member := by
    rcases mem_append.mp member with in_log | in_tables
    · obtain ⟨_, in_records, held⟩ := mem_flatMap.mp in_log
      rw [WALRecord.seq_of_mem_tombstones held]
      exact lt_of_lt_of_le (seq_lt_nextSeq in_records) (le_max_right _ _)
    · obtain ⟨table, present, stored⟩ := (mem_loadTombstones consistent.toHoused).mp in_tables
      obtain ⟨level, _, inside⟩ := mem_tables.mp present
      exact lt_of_lt_of_le (older level table inside _ stored) (le_max_left _ _)
  lastSeq := max_le lastSeq (journal.nextSeq_replayed_le survived.wals)
  sound := (VLogManager.sound_initializeVLog killed.vlogs).1
  extended := survived.vlogs.trans (VLogManager.sound_initializeVLog killed.vlogs).2

theorem table?_opened (fileId : Nat) : killed.opened.table? fileId = killed.table? fileId := by
  unfold opened withFreshWal Disk.table? createWal removeWal
  rw [(withoutWals_eq _ _).2.1]

theorem manifest_opened : killed.opened.manifest = killed.manifest := by
  unfold opened withFreshWal createWal removeWal
  rw [(withoutWals_eq _ _).2.2.1]

/-- The directory has one log, which is new. -/
theorem journal_openedWith (options : Options) (killed : Disk) (levels : Nat → List SSTable)
    (manifest : Manifest) : Journal (openedWith options killed levels manifest) [] [] := by
  refine ⟨?_, ⟨killed.walFiles.length + 1, Nat.lt_succ_self _, rfl⟩, nofun, nofun⟩
  intro file
  change file ∈ killed.opened.wals ∧ isWalName file.name = true ↔ _
  rw [← mem_walFiles, walFiles_opened, mem_singleton]
  constructor
  · exact .inl
  · rintro (new | ⟨impossible, _⟩)
    · exact new
    · cases impossible

end Opened

/-- The invariants that an opening establishes, whatever tombstones were lost before. -/
structure Reopened (db again : Database) : Prop extends Rebuilt db again where
  options : again.options = db.options
  numbered : Numbered again
  archived : Archived again
  journaled : Journaled again

section

variable (consistent : Consistent db) (numbered : Numbered db) (archived : Archived db)
  (journaled : Journaled db)
include consistent numbered archived journaled

/-- Opening the directory that a kill left succeeds and finds the versions. -/
theorem Consistent.reopens (logged : Logged db)
    (ordered : ReplayOrdered db) (survived : Killed db killed) :
    ∃ again, openDatabase db.options killed = .ok again ∧ Reopened db again := by
  obtain ⟨_, _, journal⟩ := journaled
  obtain ⟨manifest, loaded, onDisk, files, positive, numbers, lastSeq, older⟩ :=
    archived.metadata survived
  have rebuilt : Rebuilt db (openedWith db.options killed db.levels manifest) :=
    rebuilt_openedWith consistent journal logged ordered survived lastSeq older
  refine ⟨_, openDatabase_eq loaded,
    { toRebuilt := rebuilt
      options := rfl
      numbered := ⟨numbers, numbered.unique, numbered.nodup⟩
      archived := ?_
      journaled := ⟨[], [], journal_openedWith ..⟩ }⟩
  exact
    { listed := fun level => files.symm ▸ archived.listed level
      deep := archived.deep
      kept := fun level table member => (table?_opened _).trans
        (survived.tables _ _ (archived.kept level table member))
      onDisk := by
        change killed.opened.manifest = some manifest ∨ killed.opened.manifest = none ∧ _
        rw [manifest_opened]
        exact onDisk
      numbers := numbers
      positive := positive
      counter := le_refl _
      older := older
      lastSeq := le_max_left _ _
      zero := (table?_opened 0).trans survived.zero }

/-- Opening the directory that a kill left succeeds and changes no answer. -/
theorem Consistent.recovers (remembered : Remembered db)
    (logged : Logged db) (ordered : ReplayOrdered db) (survived : Killed db killed) :
    ∃ again, openDatabase db.options killed = .ok again ∧ Recovered db again := by
  obtain ⟨again, opened, reopened⟩ :=
    consistent.reopens numbered archived journaled logged ordered survived
  have rebuilt := reopened.toRebuilt
  exact ⟨again, opened,
    { options := reopened.options
      consistent := rebuilt.consistent consistent
      numbered := reopened.numbered
      archived := reopened.archived
      journaled := reopened.journaled
      remembered := rebuilt.remembered
      points := rebuilt.points_eq
      tombstones := fun tombstone member =>
        consistent.registered_of_holds ((rebuilt.tombstones tombstone).mp member)
      answers := fun _ user => rebuilt.answers consistent remembered user }⟩

end

end Database

end LightKV
