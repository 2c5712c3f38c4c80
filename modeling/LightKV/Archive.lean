import LightKV.Operation

/-!
# Tables and the manifest

The manifest names the tables of each level in the order in which they were added. Level 0
is that order itself; a deeper level is what inserting the tables one after another gives.
A flush and a round change level and manifest together: the inputs of a round leave both,
its outputs are inserted into the level and listed at the end of the manifest. So opening
the directory, which inserts the tables in the order of the manifest, arranges every level
as it was.
-/

namespace LightKV

open Versions Levels List Function TableBuilder

/-- A level as the order in which its tables were added makes it. -/
def arranged (level : Nat) (order : List SSTable) : List SSTable :=
  if level = 0 then order else insertFiles SSTable.smallestKey order []

theorem mem_arranged : table ∈ arranged level order ↔ table ∈ order := by
  unfold arranged
  split
  · rfl
  · simp [mem_insertFiles]

theorem arranged_filter (level : Nat) (order : List SSTable) (keep : SSTable → Bool) :
    arranged level (order.filter keep) = (arranged level order).filter keep := by
  unfold arranged
  split
  · rfl
  · rw [filter_insertFiles List.Pairwise.nil]
    rfl

/-- Tables that are added to the order of a deeper level are inserted into it. -/
theorem arranged_append (positive : level ≠ 0) (order added : List SSTable) :
    arranged level (order ++ added) =
      insertFiles SSTable.smallestKey added (arranged level order) := by
  unfold arranged
  rw [if_neg positive, if_neg positive]
  exact foldl_append ..

/-! ## The manifest edits of a round -/

variable (manifest : Manifest)

theorem files_foldl_addFile (inner : level < numLevels) (added : List SSTable) :
    (added.foldl (fun manifest table => manifest.addFile level table.metaData) manifest).files =
      update manifest.files level
        (manifest.files level ++ added.map SSTable.metaData) := by
  rw [← foldl_map (f := SSTable.metaData), Manifest.foldl_addFile_eq inner]

theorem files_foldl_removeFile (inputs : List InputFile)
    (inner : ∀ input ∈ inputs, input.level < numLevels) (level : Nat) :
    (inputs.foldl (fun manifest input => manifest.removeFile input.level input.table.fileId)
        manifest).files level =
      (manifest.files level).filter fun data => isKept inputs level data.fileId := by
  have removed := @Manifest.foldl_removeFile_eq manifest
    (inputs.map fun input => (input.level, input.table.fileId)) (by simpa using inner)
  rw [foldl_map] at removed
  rw [removed]
  simp only [isKept]
  grind

theorem files_editManifest (inner : outputLevel < numLevels) (added : List SSTable)
    (inputs_inner : ∀ input ∈ inputs, input.level < numLevels) (level : Nat) :
    (editManifest manifest outputLevel added inputs).files level =
      (update manifest.files outputLevel
        (manifest.files outputLevel ++ added.map SSTable.metaData) level).filter
        fun data => isKept inputs level data.fileId := by
  unfold editManifest
  rw [files_foldl_removeFile _ _ inputs_inner, files_foldl_addFile _ inner]

namespace Database

variable {db later : Database}

/-! ## The invariant -/

/-- The levels are arranged as the manifest in memory lists them, their tables are on disk,
and the manifest on disk is the one in memory, or there is none yet. -/
structure Archived (db : Database) : Prop where
  listed : ∀ level, ∃ order, db.manifest.files level = order.map SSTable.metaData ∧
    db.levels level = arranged level order
  deep : ∀ level, numLevels ≤ level → db.levels level = []
  kept : ∀ level, ∀ table ∈ db.levels level, db.disk.table? table.fileId = some table
  onDisk : db.disk.manifest = some db.manifest ∨
    db.disk.manifest = none ∧ ∀ level, db.manifest.files level = []
  numbers : ∀ level, ∀ table ∈ db.levels level, table.fileId < db.manifest.nextFileId
  positive : 0 < db.manifest.nextFileId
  counter : db.manifest.nextFileId ≤ db.nextFileId
  older : ∀ level, ∀ table ∈ db.levels level, ∀ entry ∈ table.entries,
    entry.seq < db.manifest.lastSeq
  lastSeq : db.manifest.lastSeq ≤ db.lastSeq
  zero : db.disk.table? 0 = none

theorem Archived.congr (archived : Archived db) (levels : later.levels = db.levels)
    (inMemory : later.manifest = db.manifest) (onDisk : later.disk.manifest = db.disk.manifest)
    (tables : ∀ fileId < db.nextFileId, later.disk.table? fileId = db.disk.table? fileId)
    (nextFileId : db.nextFileId ≤ later.nextFileId) (lastSeq : db.lastSeq ≤ later.lastSeq) :
    Archived later := by
  refine ⟨?_, ?_, ?_, ?_, ?_, ?_, ?_, ?_, ?_, ?_⟩
  · rw [levels, inMemory]
    exact archived.listed
  · rw [levels]
    exact archived.deep
  · rw [levels]
    intro level table member
    have below := lt_of_lt_of_le (archived.numbers level table member) archived.counter
    rw [tables table.fileId below]
    exact archived.kept level table member
  · rw [inMemory, onDisk]
    exact archived.onDisk
  · rw [levels, inMemory]
    exact archived.numbers
  · rw [inMemory]
    exact archived.positive
  · rw [inMemory]
    exact le_trans archived.counter nextFileId
  · rw [levels, inMemory]
    exact archived.older
  · rw [inMemory]
    exact le_trans archived.lastSeq lastSeq
  · rw [tables 0 (lt_of_lt_of_le archived.positive archived.counter)]
    exact archived.zero

theorem archived_fresh (options : Options) : Archived (fresh options) where
  listed _ := ⟨[], rfl, by simp [arranged, fresh, insertFiles]⟩
  deep _ _ := rfl
  kept _ table member := by cases member
  onDisk := .inr ⟨rfl, fun _ => rfl⟩
  numbers _ table member := by cases member
  positive := one_pos
  counter := le_refl _
  older _ table member := by cases member
  lastSeq := le_refl _
  zero := rfl

/-- The versions of all tables have claimed sequence numbers. -/
def TablesClaimed (db : Database) : Prop :=
  ∀ table ∈ db.tables, ∀ entry ∈ table.entries, entry.seq < db.lastSeq

theorem Housed.tablesClaimed (housed : Housed db) : TablesClaimed db :=
  fun table member => housed.older table.entries (.inr (.inr ⟨table, member, rfl⟩))

theorem TablesClaimed.of_level (claimed : TablesClaimed db)
    (deep : ∀ level, numLevels ≤ level → db.levels level = []) (level : Nat) :
    ∀ table ∈ db.levels level, ∀ entry ∈ table.entries, entry.seq < db.lastSeq := by
  intro table member
  rcases lt_or_ge level numLevels with inner | beyond
  · exact claimed table (mem_tables.mpr ⟨level, inner, member⟩)
  · rw [deep level beyond] at member
    cases member

/-! ## Flushes -/

/-- A flush adds its table to level 0 and to the manifest. -/
theorem Archived.writeLevel0Table (archived : Archived db) (numbered : Numbered db)
    (sorter : StdSort internalKeyLess) (mem : MemTable)
    (claimed : TablesClaimed (db.writeLevel0Table sorter mem)) :
    Archived (db.writeLevel0Table sorter mem) := by
  have positive := lt_of_lt_of_le archived.positive archived.counter
  have levels_eq : (db.writeLevel0Table sorter mem).levels = update db.levels 0
    (db.levels 0 ++ [build db.options db.nextFileId (flushEntries sorter mem)]) := rfl
  have files_eq : (db.writeLevel0Table sorter mem).manifest.files =
    update db.manifest.files 0 (db.manifest.files 0 ++
      [(build db.options db.nextFileId (flushEntries sorter mem)).metaData]) := rfl
  have tables_eq : ∀ fileId, (db.writeLevel0Table sorter mem).disk.table? fileId =
      if fileId = db.nextFileId then
        some (build db.options db.nextFileId (flushEntries sorter mem))
      else db.disk.table? fileId := fun fileId => db.disk.table?_writeTable
  have own : (build db.options db.nextFileId (flushEntries sorter mem)).fileId =
    db.nextFileId := rfl
  generalize build db.options db.nextFileId (flushEntries sorter mem) = table at *
  have member_cases : ∀ level, ∀ other ∈ (db.writeLevel0Table sorter mem).levels level,
      other ∈ db.levels level ∨ other = table := by
    intro _ _ member
    rw [levels_eq, mem_update_append, mem_singleton] at member
    exact member.imp_right And.right
  have deep : ∀ level, numLevels ≤ level → (db.writeLevel0Table sorter mem).levels level = [] := by
    intro level beyond
    rw [levels_eq, update_of_ne (by rintro rfl; exact absurd beyond (by decide))]
    exact archived.deep level beyond
  refine ⟨?_, deep, ?_, .inl rfl, ?_, Nat.succ_pos _, le_refl _, claimed.of_level deep,
    le_refl _, ?_⟩
  · intro level
    obtain ⟨order, files, arrangement⟩ := archived.listed level
    by_cases first : level = 0
    · subst first
      refine ⟨order ++ [table], ?_, ?_⟩
      · rw [files_eq, files, map_append]
        rfl
      · rw [levels_eq, arrangement]
        rfl
    · refine ⟨order, ?_, ?_⟩
      · rw [files_eq, update_of_ne first, files]
      · rw [levels_eq, update_of_ne first, arrangement]
  · intro level other member
    rw [tables_eq]
    rcases member_cases level other member with old | rfl
    · rw [if_neg (ne_of_lt (numbered.below level other old))]
      exact archived.kept level other old
    · exact if_pos own
  · intro level other member
    rcases member_cases level other member with old | rfl
    · exact Nat.lt_succ_of_lt (numbered.below level other old)
    · exact own ▸ Nat.lt_succ_self _
  · rw [tables_eq, if_neg (ne_of_lt positive)]
    exact archived.zero

/-! ## Rounds -/

/-- Outputs have new numbers, so old tables stay as they are. -/
theorem table?_withOutputs (db : Database) (level : Nat) (picked : List SSTable)
    (range : Bytes × Bytes) (old : fileId < db.nextFileId) :
    (db.withOutputs (db.roundResult level picked range)).disk.table? fileId =
      db.disk.table? fileId := by
  obtain ⟨distinct, fresh, _, _⟩ := db.numbered_added level picked range
  have absent : ((db.roundResult level picked range).written.find? fun table =>
      decide (table.fileId = fileId)) = none := by
    apply find?_eq_none.mpr
    intro table member
    have new := (fresh table member).1
    simpa using (by omega : table.fileId ≠ fileId)
  have found := db.disk.table?_foldl_writeTable distinct fileId
  rw [absent] at found
  exact found

/-- An output that was added can be found under its number. -/
theorem table?_withOutputs_added (db : Database) (level : Nat) (picked : List SSTable)
    (range : Bytes × Bytes) (member : table ∈ (db.roundResult level picked range).added) :
    (db.withOutputs (db.roundResult level picked range)).disk.table? table.fileId = some table := by
  obtain ⟨distinct, _, _, registered⟩ := db.numbered_added level picked range
  have written := registered.mem member
  have some_found : ((db.roundResult level picked range).written.find? fun other =>
      decide (other.fileId = table.fileId)).isSome = true :=
    find?_isSome.mpr ⟨table, written, decide_eq_true rfl⟩
  obtain ⟨other, found⟩ := Option.isSome_iff_exists.mp some_found
  have same : other = table := inj_on_of_nodup_map distinct
    (mem_of_find?_eq_some found) written (by simpa using find?_some found)
  have located := db.disk.table?_foldl_writeTable distinct table.fileId
  rw [found, same] at located
  exact located

theorem Archived.failed (archived : Archived db) (level : Nat) (picked : List SSTable)
    (range : Bytes × Bytes) : Archived (db.withOutputs (db.roundResult level picked range)) := by
  refine archived.congr rfl rfl ?_ (fun _ => db.table?_withOutputs level picked range)
    (db.numbered_added level picked range).2.2.1 (le_refl _)
  unfold withOutputs
  rw [Disk.foldl_writeTable_eq]

section Round

variable {level : Nat} {picked rest : List SSTable} {range : Bytes × Bytes}

section

variable (numbered : Numbered db) (front : db.levels level = picked ++ rest)
include numbered front

/-- Outputs are no inputs. -/
theorem kept_added
    (index : Nat) {table : SSTable} (member : table ∈ (db.roundResult level picked range).added) :
    isKept (db.inputFiles level picked range) index table.fileId = true := by
  obtain ⟨_, fresh, _, registered⟩ := db.numbered_added level picked range
  have new := (fresh table (registered.mem member)).1
  apply decide_eq_true
  intro input source _ _
  have below := numbered.below input.level input.table (mem_levels_of_inputFiles front source)
  omega

/-- The levels behind a round: what is kept of each, and the outputs. -/
theorem levels_finishRound_kept (index : Nat) :
    let kept := (db.levels index).filter fun table =>
      isKept (db.inputFiles level picked range) index table.fileId
    (db.finishRound level picked rest range).levels index =
      if index = level + 1 then
        insertFiles SSTable.smallestKey (db.roundResult level picked range).added kept
      else kept := by
  intro kept
  have kept_eq : kept = _ := kept_levels numbered front index
  rw [levels_finishRound, kept_eq]
  by_cases next : index = level + 1
  · subst next
    rw [update_self, if_pos rfl, if_neg (Nat.succ_ne_self level), if_pos rfl]
  · rw [update_of_ne next, if_neg next, if_neg next, update_apply]

/-- No table behind a round has the number of an input. -/
theorem not_input_of_finishRound
    (member : table ∈ (db.finishRound level picked rest range).levels index) :
    table.fileId ∉ (db.inputFiles level picked range).map fun input => input.table.fileId := by
  intro listed
  obtain ⟨input, source, same⟩ := mem_map.mp listed
  have cases : table ∈ (db.roundResult level picked range).added ∨
      table ∈ (db.levels index).filter fun table =>
        isKept (db.inputFiles level picked range) index table.fileId := by
    rw [levels_finishRound_kept numbered front] at member
    split at member
    · exact mem_insertFiles.mp member
    · exact .inr member
  rcases cases with new | kept
  · have kept := kept_added numbered front input.level new
    exact absurd same.symm (of_decide_eq_true kept input source rfl)
  · obtain ⟨old, kept⟩ := mem_filter.mp kept
    obtain ⟨same_level, _⟩ := numbered.unique index input.level table old input.table
      (mem_levels_of_inputFiles front source) same.symm
    exact absurd same.symm (of_decide_eq_true kept input source same_level.symm)

end

/-- A round leaves the inputs in neither levels nor manifest and adds the outputs to both. -/
theorem Archived.finishRound (archived : Archived db) (numbered : Numbered db)
    (inner : level + 1 < numLevels) (front : db.levels level = picked ++ rest)
    (claimed : TablesClaimed (db.finishRound level picked rest range)) :
    Archived (db.finishRound level picked rest range) := by
  have grows := (db.numbered_added level picked range).2.2.1
  have positive := lt_of_lt_of_le archived.positive archived.counter
  have levels_eq := fun index => @levels_finishRound_kept _ _ _ _ range numbered front index
  have inputs_inner : ∀ input ∈ db.inputFiles level picked range, input.level < numLevels := by
    intro _ member
    rcases mem_inputFiles.mp member with ⟨_, _⟩ | ⟨_, _⟩ <;> omega
  have deep : ∀ index, numLevels ≤ index →
      (db.finishRound level picked rest range).levels index = [] := by
    intro index beyond
    rw [levels_eq, if_neg (by omega), archived.deep index beyond, filter_nil]
  have files_eq : ∀ index, (db.finishRound level picked rest range).manifest.files index =
      (update db.manifest.files (level + 1) (db.manifest.files (level + 1) ++
        (db.roundResult level picked range).added.map SSTable.metaData) index).filter
        fun data => isKept (db.inputFiles level picked range) index data.fileId := by
    intro _
    rw [← files_editManifest db.manifest inner _ inputs_inner]
    rfl
  have tables_eq : ∀ fileId, (db.finishRound level picked rest range).disk.table? fileId =
      if fileId ∈ (db.inputFiles level picked range).map (fun input => input.table.fileId) then none
      else (db.withOutputs (db.roundResult level picked range)).disk.table? fileId :=
    fun _ => Disk.table?_foldl_removeTable _
  refine ⟨?_, deep, ?_, .inl ?_, (numbered.finishRound front).below,
    lt_of_lt_of_le positive grows, le_refl _, claimed.of_level deep, le_refl _, ?_⟩
  · intro index
    obtain ⟨order, files, arrangement⟩ := archived.listed index
    have new := fun table => @kept_added _ _ _ _ range numbered front index table
    rw [levels_eq, arrangement, files_eq]
    generalize (db.roundResult level picked range).added = added at *
    generalize db.inputFiles level picked range = inputs at *
    -- The order without the inputs, with the outputs behind it on their level.
    have fewer : (order.map SSTable.metaData).filter (fun data => isKept inputs index data.fileId) =
        (order.filter fun table => isKept inputs index table.fileId).map SSTable.metaData :=
      filter_map
    rw [← arranged_filter]
    by_cases next : index = level + 1
    · subst next
      have all : (added.map SSTable.metaData).filter
          (fun data => isKept inputs (level + 1) data.fileId) = added.map SSTable.metaData := by
        apply filter_eq_self.mpr
        intro _ member
        obtain ⟨table, listed, rfl⟩ := mem_map.mp member
        exact new table listed
      refine ⟨_, ?_, (if_pos rfl).trans (arranged_append (Nat.succ_ne_zero level) _ _).symm⟩
      rw [update_self, files, filter_append, fewer, all, map_append]
    · refine ⟨_, ?_, if_neg next⟩
      rw [update_of_ne next, files, fewer]
  · intro index table member
    rw [tables_eq, if_neg (not_input_of_finishRound numbered front member)]
    rcases mem_levels_finishRound front member with ⟨_, new⟩ | old
    · exact db.table?_withOutputs_added level picked range new
    · rw [db.table?_withOutputs level picked range (numbered.below index table old)]
      exact archived.kept index table old
  · unfold Database.finishRound install
    dsimp only
    rw [Disk.foldl_removeTable_eq]
    rfl
  · rw [tables_eq]
    split
    · rfl
    · rw [db.table?_withOutputs level picked range positive]
      exact archived.zero

end Round

/-! ## Steps -/

theorem Archived.maintain (archived : Archived db) (numbered : Numbered db) {step : Maintenance}
    (orderly : db.Orderly step) (sorter : StdSort internalKeyLess)
    (claimed : TablesClaimed (db.maintain sorter step)) : Archived (db.maintain sorter step) := by
  have turn := turn_maintain numbered orderly sorter
  generalize db.maintain sorter step = later at turn claimed
  cases turn with
  | same => exact archived
  | rotated _ =>
    refine archived.congr ?_ ?_ ?_ (fun _ _ => ?_) ?_ ?_ <;>
    · unfold Database.triggerFlush
      split <;> rfl
  | flushed =>
    rcases db.flushWrite_cases sorter with same | ⟨mem, _, written⟩
    · rw [same]
      exact archived
    · rw [written] at claimed ⊢
      have written := archived.writeLevel0Table numbered sorter mem claimed
      exact written.congr rfl rfl rfl (fun _ _ => rfl) (le_refl _) (le_refl _)
  | released =>
    refine archived.congr ?_ ?_ ?_ (fun _ _ => ?_) ?_ ?_ <;>
    · unfold Database.flushRelease
      split
      · split <;> rfl
      · rfl
  | claimed _ =>
    exact archived.congr rfl rfl rfl (fun _ _ => rfl) (Nat.le_add_right _ _) (le_refl _)
  | failed level picked range => exact archived.failed level picked range
  | merged round _ _ _ => exact archived.finishRound numbered round.inner round.front claimed

theorem Archived.call (archived : Archived db) (call : Call) : Archived (db.call call) := by
  rcases db.call_cases call with ⟨same, _⟩ | ⟨_, _, _, written⟩
  · rw [same]
    exact archived
  · rw [written]
    exact archived.congr rfl rfl rfl (fun _ _ => rfl) (le_refl _) (Nat.le_succ _)

end Database

end LightKV
