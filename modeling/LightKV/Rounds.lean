import LightKV.CompactionCuts
import LightKV.Consistency
import LightKV.LevelCompaction

/-!
# Compaction rounds keep the answers

Both kinds of rounds have one shape: the front of a level and the tables of the next level
that overlap its key range are merged, and the outputs take the place of the inputs. A
table of the next level that stays lies on one side of all inputs, so the outputs can be
inserted between the tables that stay.

`InsertIntoLevel` puts a table in front of those that begin with its key. This is right as
long as a round is `RoundOrderly`: no two outputs begin with one key, and a table that
stays and begins with a key of an input holds older versions of it. Besides, a cut
between two outputs must not separate a value from a deletion with the same sequence
number; so the inputs shall not hold both (`Untied`).
-/

namespace LightKV

open Versions Levels Function SSTable
open List hiding range

/-! ## Key ranges -/

theorem widen_fst_le :
    (widen range table).1 ≤ range.1 := by
  unfold widen
  split
  · rename_i smaller
    exact le_of_lt smaller.2
  · exact le_refl _

theorem le_widen_snd :
    range.2 ≤ (widen range table).2 := by
  unfold widen
  dsimp only
  split
  · rename_i larger
    exact le_of_lt larger.2
  · exact le_refl _

/-- A range contains a table when all its keys lie in it. -/
def Within (range : Bytes × Bytes) (table : SSTable) : Prop :=
  ∀ entry ∈ table.entries, range.1 ≤ entry.key ∧ entry.key ≤ range.2

theorem Within.mono (within : Within range table) (lower : wider.1 ≤ range.1)
    (upper : range.2 ≤ wider.2) : Within wider table :=
  fun entry member => ⟨le_trans lower (within entry member).1,
    le_trans (within entry member).2 upper⟩

/-- The keys of a sorted table lie between its first and its last key. -/
theorem within_own (sorted : KeySorted Entry.key table.entries) :
    Within (table.smallestKey, table.largestKey) table :=
  fun _ member => ⟨bounds.first_le sorted member, bounds.le_last sorted member⟩

/-- A widened range contains the table. -/
theorem within_widen (sorted : KeySorted Entry.key table.entries)
    (nonempty : ∀ entry ∈ table.entries, entry.key ≠ []) : Within (widen range table) table := by
  intro entry member
  obtain ⟨low, high⟩ := within_own sorted entry member
  have filled : table.entries ≠ [] := ne_nil_of_mem member
  obtain ⟨first, first_in, first_eq⟩ := bounds.exists_first filled
  obtain ⟨last, last_in, last_eq⟩ := bounds.exists_last filled
  have smallest : table.smallestKey ≠ [] := first_eq ▸ nonempty first first_in
  have largest : table.largestKey ≠ [] := last_eq ▸ nonempty last last_in
  unfold widen
  dsimp only
  constructor
  · split
    · exact low
    · rename_i kept
      exact le_trans (le_of_not_gt fun smaller => kept ⟨smallest, smaller⟩) low
  · split
    · exact high
    · rename_i kept
      exact le_trans high (le_of_not_gt fun larger => kept ⟨largest, larger⟩)

theorem within_foldl_widen {tables : List SSTable} (range : Bytes × Bytes)
    (sorted : ∀ table ∈ tables, KeySorted Entry.key table.entries)
    (nonempty : ∀ table ∈ tables, ∀ entry ∈ table.entries, entry.key ≠ []) :
    (tables.foldl widen range).1 ≤ range.1 ∧ range.2 ≤ (tables.foldl widen range).2 ∧
      ∀ table ∈ tables, Within (tables.foldl widen range) table := by
  induction tables generalizing range with
  | nil => exact ⟨le_refl _, le_refl _, fun _ member => absurd member (by simp)⟩
  | cons table _ ih =>
    obtain ⟨lower, upper, rest⟩ := ih (widen range table)
      (fun other member => sorted other (mem_cons_of_mem _ member))
      (fun other member => nonempty other (mem_cons_of_mem _ member))
    refine ⟨le_trans lower widen_fst_le,
      le_trans le_widen_snd upper, ?_⟩
    intro other member
    rcases mem_cons.mp member with rfl | later
    · exact (within_widen (sorted other mem_cons_self)
        (nonempty other mem_cons_self)).mono lower upper
    · exact rest other later

/-- The range of picked tables contains each of them. -/
theorem within_level0Range (sorted : ∀ table ∈ picked, KeySorted Entry.key table.entries)
    (nonempty : ∀ table ∈ picked, ∀ entry ∈ table.entries, entry.key ≠ []) :
    ∀ table ∈ picked, Within (level0Range picked) table := by
  cases picked with
  | nil => simp
  | cons first rest =>
    obtain ⟨lower, upper, all⟩ := within_foldl_widen (first.smallestKey, first.largestKey)
      (fun other member => sorted other (mem_cons_of_mem _ member))
      (fun other member => nonempty other (mem_cons_of_mem _ member))
    intro table member
    rcases mem_cons.mp member with rfl | later
    · exact (within_own (sorted table mem_cons_self)).mono lower upper
    · exact all table later

/-! ## Tables that stay -/

section Sides

variable {files picked : List SSTable} {range : Bytes × Bytes}

/-- A table that the range misses has everything that is merged on the same side as the range. -/
theorem one_side {above below : SSTable → Prop} (missed : overlaps range table = false)
    (past : table.largestKey < range.1 → ∀ input ∈ picked, above input)
    (ahead : range.2 < table.smallestKey → ∀ input ∈ picked, below input)
    (apart : ∀ input ∈ files, input ≠ table →
      above input ∧ table.smallestKey ≤ input.smallestKey ∨
        below input ∧ input.largestKey ≤ table.largestKey) :
    (∀ input ∈ picked ++ files.filter (overlaps range), above input) ∨
      ∀ input ∈ picked ++ files.filter (overlaps range), below input := by
  have selected : ∀ input ∈ files.filter (overlaps range), input ∈ files ∧ input ≠ table ∧
      range.1 ≤ input.largestKey ∧ input.smallestKey ≤ range.2 := by
    intro input member
    obtain ⟨in_files, meets⟩ := mem_filter.mp member
    refine ⟨in_files, ?_, by simpa [overlaps] using meets⟩
    rintro rfl
    rw [missed] at meets
    cases meets
  simp only [overlaps, Bool.and_eq_false_iff, Bool.not_eq_false', decide_eq_true_eq] at missed
  rcases missed with low | high
  · refine .inl (forall_mem_append.mpr ⟨past low, fun input member => ?_⟩)
    obtain ⟨in_files, different, reaches, _⟩ := selected input member
    rcases apart input in_files different with ⟨beside, _⟩ | ⟨_, ends⟩
    · exact beside
    · exact absurd (lt_of_le_of_lt ends low) (not_lt_of_ge reaches)
  · refine .inr (forall_mem_append.mpr ⟨ahead high, fun input member => ?_⟩)
    obtain ⟨in_files, different, _, reaches⟩ := selected input member
    rcases apart input in_files different with ⟨_, starts⟩ | ⟨beside, _⟩
    · exact absurd (lt_of_lt_of_le high starts) (not_lt_of_ge reaches)
    · exact beside

section

variable (level : Level Entry.key Entry.rank SSTable.entries files)
  (within : ∀ table ∈ picked, Within range table)
include level within

/-- A table of the level that stays lies on one side of everything that is merged. -/
theorem one_side_of_not_overlaps (present : table ∈ files) (stays : overlaps range table = false) :
    (∀ input ∈ picked ++ files.filter (overlaps range),
        Precedes Entry.key Entry.rank table.entries input.entries) ∨
      ∀ input ∈ picked ++ files.filter (overlaps range),
        Precedes Entry.key Entry.rank input.entries table.entries := by
  have sorted := level.sorted table present
  refine one_side stays ?_ ?_ ?_
  · intro low input taken _ in_first second in_second
    exact .inl (lt_of_le_of_lt (bounds.le_last sorted.keySorted in_first)
      (lt_of_lt_of_le low (within input taken second in_second).1))
  · intro high input taken first in_first _ in_second
    exact .inl (lt_of_le_of_lt (within input taken first in_first).2
      (lt_of_lt_of_le high (bounds.first_le sorted.keySorted in_second)))
  · intro input in_files different
    have filled := level.nonempty table present
    have input_filled := level.nonempty input in_files
    rcases level.precedes_or present in_files different.symm with before | reversed
    · obtain ⟨first, first_in, first_eq⟩ := bounds.exists_first filled
      obtain ⟨start, start_in, start_eq⟩ := bounds.exists_first input_filled
      exact .inl ⟨before, first_eq ▸ start_eq ▸ (before first first_in start start_in).key_le⟩
    · obtain ⟨last, last_in, last_eq⟩ := bounds.exists_last filled
      obtain ⟨final, final_in, final_eq⟩ := bounds.exists_last input_filled
      exact .inr ⟨reversed, last_eq ▸ final_eq ▸ (reversed final final_in last last_in).key_le⟩

/-- The outputs of a merge can be inserted between the tables that stay. -/
theorem level_of_merged
    (merged : Merged (picked ++ files.filter (overlaps range)) added) (untied : Untied added)
    (distinct : added.Pairwise fun first second => first.smallestKey ≠ second.smallestKey)
    (follows : ∀ table ∈ added, Follows Entry.key Entry.rank SSTable.entries table (files.filter
      fun table => !overlaps range table)) :
    Level Entry.key Entry.rank SSTable.entries
      (insertFiles SSTable.smallestKey added
        (files.filter fun table => !overlaps range table)) := by
  apply Level.insertFiles bounds (level.sublist filter_sublist)
    (merged.level untied) ?_ distinct follows
  intro file member _ stays
  obtain ⟨present, apart⟩ := mem_filter.mp stays
  have source : ∀ entry ∈ file.entries, ∃ input ∈ picked ++ files.filter (overlaps range),
      entry ∈ input.entries := fun _ inside =>
    mem_versionsOf.mp (merged.mem_inputs (mem_versionsOf.mpr ⟨file, member, inside⟩))
  rcases one_side_of_not_overlaps level within present (by simpa using apart) with before | after
  · left
    intro first in_first second in_second
    obtain ⟨input, in_inputs, inside⟩ := source second in_second
    exact before input in_inputs first in_first second inside
  · right
    intro first in_first second in_second
    obtain ⟨input, in_inputs, inside⟩ := source first in_first
    exact after input in_inputs first inside second in_second

end

end Sides

/-! ## File numbers -/

/-- The tables of a level that are no inputs. -/
def isKept (inputs : List InputFile) (level fileId : Nat) : Bool :=
  decide (∀ input ∈ inputs, input.level = level → fileId ≠ input.table.fileId)

namespace Database

variable {db : Database} {level : Nat} {picked rest : List SSTable} {range : Bytes × Bytes}

/-- Table numbers are below the counter, and no number is used twice. -/
structure Numbered (db : Database) : Prop where
  below : ∀ level, ∀ table ∈ db.levels level, table.fileId < db.nextFileId
  unique : ∀ level other, ∀ first ∈ db.levels level, ∀ second ∈ db.levels other,
    first.fileId = second.fileId → level = other ∧ first = second
  nodup : ∀ level, (db.levels level).Nodup

/-- The inputs of a round with their levels. -/
def inputFiles (db : Database) (level : Nat) (picked : List SSTable) (range : Bytes × Bytes) :
    List InputFile :=
  picked.map (InputFile.mk level) ++
    (db.overlapping level range).map (InputFile.mk (level + 1))

theorem mem_inputFiles :
    input ∈ db.inputFiles level picked range ↔
      input.level = level ∧ input.table ∈ picked ∨
        input.level = level + 1 ∧ input.table ∈ db.overlapping level range := by
  obtain ⟨_, _⟩ := input
  simp [inputFiles, eq_comm, and_comm]

theorem mem_levels_of_inputFiles (front : db.levels level = picked ++ rest)
    (member : input ∈ db.inputFiles level picked range) : input.table ∈ db.levels input.level := by
  rcases mem_inputFiles.mp member with ⟨here, taken⟩ | ⟨next, merged⟩
  · rw [here, front]
    exact mem_append_left _ taken
  · rw [next]
    exact (mem_filter.mp merged).1

section

variable (numbered : Numbered db) (front : db.levels level = picked ++ rest)
include numbered front

/-- A table is kept exactly if it is not an input of its level. -/
theorem isKept_inputFiles (present : table ∈ db.levels index) :
    isKept (db.inputFiles level picked range) index table.fileId = true ↔
      (⟨index, table⟩ : InputFile) ∉ db.inputFiles level picked range := by
  unfold isKept
  rw [decide_eq_true_eq]
  constructor
  · exact fun kept member => kept _ member rfl rfl
  intro absent input member same_level same_id
  have source := mem_levels_of_inputFiles front member
  obtain ⟨_, same⟩ := numbered.unique index input.level table present input.table source same_id
  refine absent ?_
  rw [same, ← same_level]
  exact member

/-- What a round leaves of the old levels. -/
theorem kept_levels (index : Nat) :
    (db.levels index).filter
        (fun table => isKept (db.inputFiles level picked range) index table.fileId) =
      if index = level then rest
      else if index = level + 1 then db.staying level range else db.levels index := by
  split
  · rename_i here
    subst here
    have distinct := numbered.nodup index
    rw [front] at distinct ⊢
    have apart := (nodup_append.mp distinct).2.2
    have taken_out : picked.filter (fun table =>
        isKept (db.inputFiles index picked range) index table.fileId) = [] := by
      apply filter_eq_nil_iff.mpr
      intro _ member kept
      refine (isKept_inputFiles numbered front ?_).mp kept (mem_inputFiles.mpr (.inl ⟨rfl, member⟩))
      rw [front]
      exact mem_append_left _ member
    have left : rest.filter (fun table =>
        isKept (db.inputFiles index picked range) index table.fileId) = rest := by
      apply filter_eq_self.mpr
      intro table member
      refine (isKept_inputFiles numbered front ?_).mpr fun input => ?_
      · rw [front]
        exact mem_append_right _ member
      · rcases mem_inputFiles.mp input with ⟨_, taken⟩ | ⟨impossible, _⟩
        · exact apart table taken table member rfl
        · exact absurd impossible (ne_of_lt (Nat.lt_succ_self index))
    rw [filter_append, taken_out, left, nil_append]
  · rename_i elsewhere
    split
    · rename_i next
      subst next
      apply filter_congr
      intro _ present
      rw [Bool.eq_iff_iff, isKept_inputFiles numbered front present, mem_inputFiles]
      simp [overlapping, present]
    · rename_i beyond
      apply filter_eq_self.mpr
      intro _ present
      refine (isKept_inputFiles numbered front present).mpr fun input => ?_
      rcases mem_inputFiles.mp input with ⟨here, _⟩ | ⟨next, _⟩
      · exact elsewhere here
      · exact beyond next

/-- The levels without the inputs of a round. -/
theorem detach_inputFiles :
    detach db.levels (db.inputFiles level picked range) =
      update (update db.levels level rest) (level + 1) (db.staying level range) := by
  funext index
  refine detach_apply.trans ((kept_levels numbered front index).trans ?_)
  rw [update_apply, update_apply]
  by_cases next : index = level + 1
  · subst next
    rw [if_neg (Nat.succ_ne_self level), if_pos rfl, if_pos rfl]
  · rw [if_neg next, if_neg next]

end

theorem doLevelCompaction_eq (numbered : Numbered db) (inner : level + 1 < numLevels)
    {picked : SSTable} (front : db.levels level = picked :: rest) :
    let range := (picked.smallestKey, picked.largestKey)
    let result := db.roundResult level [picked] range
    db.doLevelCompaction level =
      if result.status.isOk then (.ok, db.finishRound level [picked] rest range)
      else (result.status, db.withOutputs result) := by
  intro range _
  have detached : detach db.levels (⟨level, picked⟩ ::
      (db.overlapping level range).map (InputFile.mk (level + 1))) = _ :=
    @detach_inputFiles db level [picked] rest range numbered front
  unfold doLevelCompaction
  rw [if_neg (not_le_of_gt inner), front]
  dsimp only
  have merged_levels : ∀ result, (db.withOutputs result).levels = db.levels := fun _ => rfl
  rw [merged_levels, detached]
  rfl

theorem foldl_insertIntoLevel {levels : Nat → List SSTable} (positive : level ≠ 0) :
    added.foldl (fun levels table => insertIntoLevel levels level table) levels =
      update levels level (insertFiles SSTable.smallestKey added (levels level)) := by
  induction added generalizing levels with
  | nil => simp [insertFiles]
  | cons _ _ ih =>
    rw [foldl_cons, ih, insertIntoLevel, if_neg positive, update_self, update_idem]
    rfl

/-- The levels behind a round. -/
theorem levels_finishRound :
    (db.finishRound level picked rest range).levels =
      update (update db.levels level rest) (level + 1)
        (insertFiles SSTable.smallestKey (db.roundResult level picked range).added
          (db.staying level range)) := by
  change (db.roundResult level picked range).added.foldl
    (fun levels table => insertIntoLevel levels (level + 1) table)
    (update (update db.levels level rest) (level + 1)
      (db.staying level range)) = _
  rw [foldl_insertIntoLevel (Nat.succ_ne_zero level), update_self,
    update_idem]

/-- A round does not touch the value log. -/
theorem vlogs_finishRound :
    (db.finishRound level picked rest range).disk.vlogs = db.disk.vlogs := by
  unfold Database.finishRound install withOutputs updateManifest
  dsimp only
  rw [Disk.foldl_removeTable_eq, Disk.foldl_writeTable_eq]

/-- The tables of a later state were there before, but for those that joined one level. -/
def Gains (db later : Database) (target : Nat) (added : List SSTable) : Prop :=
  ∀ index, ∃ kept : List SSTable, kept.Sublist (db.levels index) ∧
    (later.levels index).Perm ((if index = target then added else []) ++ kept)

theorem Gains.mem (gains : Gains db later target added) (member : table ∈ later.levels index) :
    index = target ∧ table ∈ added ∨ table ∈ db.levels index := by
  obtain ⟨_, fewer, perm⟩ := gains index
  rcases mem_append.mp (perm.mem_iff.mp member) with new | old
  · split at new
    · rename_i here
      exact .inl ⟨here, new⟩
    · cases new
  · exact .inr (fewer.mem old)

/-- Tables that are appended to level 0 join it. -/
theorem gains_append (levels : later.levels = update db.levels 0 (db.levels 0 ++ added)) :
    Gains db later 0 added := by
  intro index
  rw [levels]
  by_cases zero : index = 0
  · subst zero
    exact ⟨_, List.Sublist.refl _, perm_append_comm⟩
  · rw [update_of_ne zero, if_neg zero]
    exact ⟨_, List.Sublist.refl _, List.Perm.refl _⟩

/-- The outputs of a round have new numbers, all different. -/
theorem numbered_added (db : Database) (level : Nat) (picked : List SSTable)
    (range : Bytes × Bytes) :
    let result := db.roundResult level picked range
    (result.written.map SSTable.fileId).Nodup ∧
      (∀ table ∈ result.written,
        db.nextFileId ≤ table.fileId ∧ table.fileId < result.nextFileId) ∧
      db.nextFileId ≤ result.nextFileId ∧ result.added.Sublist result.written := doCompaction_fresh

/-- New tables with numbers of their own keep the numbering. -/
theorem Numbered.gains (numbered : Numbered db) (gains : Gains db later target added)
    (grows : db.nextFileId ≤ later.nextFileId) (distinct : (added.map SSTable.fileId).Nodup)
    (below : ∀ table ∈ added, table.fileId < later.nextFileId)
    (apart : ∀ table ∈ added, ∀ level, ∀ old ∈ db.levels level, old.fileId ≠ table.fileId) :
    Numbered later := by
  constructor
  · intro index table member
    rcases gains.mem member with ⟨_, new⟩ | old
    · exact below table new
    · exact lt_of_lt_of_le (numbered.below index table old) grows
  · intro index other first in_first second in_second same
    rcases gains.mem in_first with ⟨rfl, new⟩ | old
    · rcases gains.mem in_second with ⟨rfl, also_new⟩ | old
      · exact ⟨rfl, inj_on_of_nodup_map distinct new also_new same⟩
      · exact absurd same.symm (apart first new other second old)
    · rcases gains.mem in_second with ⟨rfl, new⟩ | also_old
      · exact absurd same (apart second new index first old)
      · exact numbered.unique index other first old second also_old same
  · intro index
    obtain ⟨_, fewer, perm⟩ := gains index
    rw [perm.nodup_iff]
    refine nodup_append.mpr ⟨?_, (numbered.nodup index).sublist fewer, ?_⟩
    · split
      · exact distinct.of_map _
      · exact nodup_nil
    · rintro table new _ old rfl
      split at new
      · exact apart table new index table (fewer.mem old) rfl
      · cases new

theorem mem_tables_of_input (inner : level + 1 < numLevels)
    (front : db.levels level = picked ++ rest) {table : SSTable}
    (member : table ∈ picked ++ db.overlapping level range) : table ∈ db.tables := by
  rcases mem_append.mp member with taken | merged
  · exact mem_tables.mpr ⟨level, by omega, front ▸ mem_append_left _ taken⟩
  · exact mem_tables.mpr ⟨level + 1, inner, (mem_filter.mp merged).1⟩

theorem mem_tables_of_added (inner : level + 1 < numLevels)
    (member : table ∈ (db.roundResult level picked range).added) :
    table ∈ (db.finishRound level picked rest range).tables := by
  refine mem_tables.mpr ⟨level + 1, inner, ?_⟩
  rw [levels_finishRound, update_self]
  exact mem_insertFiles.mpr (.inl member)

section Front

variable (front : db.levels level = picked ++ rest)
include front

theorem gains_finishRound :
    Gains db (db.finishRound level picked rest range) (level + 1)
      (db.roundResult level picked range).added := by
  intro index
  rw [levels_finishRound]
  by_cases next : index = level + 1
  · subst next
    rw [update_self, if_pos rfl]
    exact ⟨_, filter_sublist, insertFiles_perm _⟩
  rw [update_of_ne next, if_neg next]
  by_cases here : index = level
  · subst here
    rw [update_self, front]
    exact ⟨rest, sublist_append_right _ _, List.Perm.refl _⟩
  · rw [update_of_ne here]
    exact ⟨_, List.Sublist.refl _, List.Perm.refl _⟩

/-- Every table behind a round is an output or an old table of the same level. -/
theorem mem_levels_finishRound
    (member : table ∈ (db.finishRound level picked rest range).levels index) :
    index = level + 1 ∧ table ∈ (db.roundResult level picked range).added ∨
      table ∈ db.levels index := (gains_finishRound front).mem member

theorem mem_levels_or_merged (member : table ∈ db.levels index) :
    table ∈ (db.finishRound level picked rest range).levels index ∨
      table ∈ picked ++ db.overlapping level range := by
  rw [levels_finishRound]
  by_cases next : index = level + 1
  · subst next
    rw [update_self]
    by_cases overlap : overlaps range table = true
    · exact .inr (mem_append_right _ (mem_filter.mpr ⟨member, overlap⟩))
    · exact .inl (mem_insertFiles.mpr (.inr (mem_filter.mpr ⟨member, by simpa using overlap⟩)))
  rw [update_of_ne next]
  by_cases here : index = level
  · subst here
    rw [update_self]
    rw [front] at member
    rcases mem_append.mp member with taken | left
    · exact .inr (mem_append_left _ taken)
    · exact .inl left
  · rw [update_of_ne here]
    exact .inl member

/-- A round keeps the numbering. -/
theorem Numbered.finishRound (numbered : Numbered db) :
    Numbered (db.finishRound level picked rest range) := by
  obtain ⟨distinct, fresh, grows, registered⟩ := db.numbered_added level picked range
  refine numbered.gains (gains_finishRound front) grows (distinct.sublist (registered.map _))
    (fun table member => (fresh table (registered.mem member)).2) ?_
  intro table member index old present _
  have bound := numbered.below index old present
  have new := (fresh table (registered.mem member)).1
  omega

theorem mem_tables_finishRound
    (member : table ∈ (db.finishRound level picked rest range).tables) :
    table ∈ (db.roundResult level picked range).added ∨ table ∈ db.tables := by
  obtain ⟨index, bound, present⟩ := mem_tables.mp member
  rcases mem_levels_finishRound front present with ⟨_, new⟩ | old
  · exact .inl new
  · exact .inr (mem_tables.mpr ⟨index, bound, old⟩)

/-- Every old table is still there behind a round, or it was merged. -/
theorem mem_tables_or_merged (member : table ∈ db.tables) :
    table ∈ (db.finishRound level picked rest range).tables ∨
      table ∈ picked ++ db.overlapping level range := by
  obtain ⟨index, bound, present⟩ := mem_tables.mp member
  rw [mem_tables]
  exact (mem_levels_or_merged front present).imp_left fun kept => ⟨index, bound, kept⟩

end Front

/-! ## The invariant -/

/-- A round that takes tables from the front of a level and whose merge succeeds. -/
structure Succeeds (db : Database) (level : Nat) (picked rest : List SSTable)
    (range : Bytes × Bytes) : Prop where
  inner : level + 1 < numLevels
  front : db.levels level = picked ++ rest
  filled : picked ≠ []
  succeeded : (db.roundResult level picked range).status.isOk = true

/-- A round that succeeds has merged its inputs. -/
theorem Housed.merged_round (housed : Housed db) (round : Succeeds db level picked rest range) :
    Merged (picked ++ db.overlapping level range) (db.roundResult level picked range).added := by
  have inputs_in := fun table =>
    @mem_tables_of_input db level picked rest range round.inner round.front table
  refine doCompaction_merged ⟨?_, ?_, ?_, ?_⟩ (by simp [round.filled]) round.succeeded
  · exact fun table member => (housed.wellFormed table (inputs_in table member)).sorted
  · exact fun table member _ inside => housed.key_ne_nil (inputs_in table member) inside
  · intro table member entry inside
    have older := housed.older table.entries
      (.inr (.inr ⟨table, inputs_in table member, rfl⟩)) entry inside
    have bounded := housed.bounded
    unfold noSnapshot
    omega
  · apply housed.closed.subset
    rintro _ ⟨table, member, rfl⟩
    exact .inr (.inr ⟨table, inputs_in table member, rfl⟩)

/-- What keeps the next level in order: a version that fills an output by itself is the
only one of its key, and a table that stays begins with no key of which an input holds
an older version. -/
structure RoundOrderly (db : Database) (level : Nat) (picked : List SSTable)
    (range : Bytes × Bytes) : Prop where
  alone : Alone db.options (targetFileSize db.options (level + 1))
    (picked ++ db.overlapping level range)
  newer : ∀ table ∈ db.staying level range, ∀ first rest, table.entries = first :: rest →
    ∀ entry ∈ versionsOf (picked ++ db.overlapping level range), entry.key = first.key →
      first.rank < entry.rank

instance (db : Database) (level : Nat) (picked : List SSTable) (range : Bytes × Bytes) :
    Decidable (db.RoundOrderly level picked range) :=
  decidable_of_iff
    (Alone db.options (targetFileSize db.options (level + 1))
        (picked ++ db.overlapping level range) ∧
      ∀ table ∈ db.staying level range, ∀ first ∈ table.entries.head?,
        ∀ entry ∈ versionsOf (picked ++ db.overlapping level range), entry.key = first.key →
          first.rank < entry.rank)
    ⟨fun ⟨alone, newer⟩ => ⟨alone, fun table stays first rest start =>
        newer table stays first (by rw [start]; rfl)⟩,
      fun orderly => ⟨orderly.alone, fun table stays first top => by
        obtain ⟨rest, start⟩ := List.head?_eq_some_iff.mp top
        exact orderly.newer table stays first rest start⟩⟩

/-- A merge that succeeds exchanges its inputs for its outputs. Of each key it keeps the
newest version, so that version shall be visible if an older one is. -/
theorem Housed.exchanges_finishRound (housed : Housed db) {visible : Entry → Prop}
    (flushed : Flushed visible db) (round : Succeeds db level picked rest range)
    (within : ∀ table ∈ picked, Within range table)
    (orderly : db.RoundOrderly level picked range)
    (untied_inputs : Untied (picked ++ db.overlapping level range))
    (upward : ∀ entry ∈ versionsOf (picked ++ db.overlapping level range), ∀ newer ∈ versionsOf
      (picked ++ db.overlapping level range), newer.key = entry.key → visible entry → visible
      newer) : Exchanges visible db (db.finishRound level picked rest range) := by
  have merged := housed.merged_round round
  obtain ⟨inner, front, _, _⟩ := round
  have inputs_in := fun table => @mem_tables_of_input db level picked rest range inner front table
  have input_runs : runsOf (picked ++ db.overlapping level range) ⊆ db.runs := by
    rintro _ ⟨table, member, rfl⟩
    exact .inr (.inr ⟨table, inputs_in table member, rfl⟩)
  have untied := merged.untied untied_inputs
  -- What a merged table held is matched by an output.
  have matched : ∀ table ∈ db.tables, ∀ entry ∈ table.entries, visible entry →
      ∃ other ∈ (db.finishRound level picked rest range).tables, ∃ newer ∈ other.entries,
        newer.key = entry.key ∧ entry.rank ≤ newer.rank ∧ visible newer := by
    intro table member entry inside seen
    rcases mem_tables_or_merged front member with kept | gone
    · exact ⟨table, kept, entry, inside, rfl, le_refl _, seen⟩
    have input := mem_versionsOf.mpr ⟨table, gone, inside⟩
    obtain ⟨newer, listed, same, at_least⟩ := merged.covered entry input
    obtain ⟨other, new, held⟩ := mem_versionsOf.mp listed
    exact ⟨other, mem_tables_of_added inner new, newer, held, same, at_least,
      upward entry input newer (merged.mem_inputs listed) same seen⟩
  constructor
  · exact ⟨rfl, rfl, .inl rfl, rfl, rfl, vlogs_finishRound ..⟩
  · intro table member
    rcases mem_tables_finishRound front member with new | old
    · exact merged.wellFormed new
    · exact housed.wellFormed table old
  · intro index low high
    rw [levels_finishRound]
    by_cases next : index = level + 1
    · subst next
      rw [update_self]
      obtain ⟨closed, written_once⟩ := doCompaction_cut db.options noSnapshot db.nextFileId
        (picked ++ db.overlapping level range) (level + 1)
      apply level_of_merged (housed.level (level + 1) low high) within merged untied
        (merged.distinct_smallestKey closed written_once orderly.alone)
      intro table new other stays first others start _ other_eq table_eq same
      have listed : start ∈ versionsOf (db.roundResult level picked range).added :=
        mem_versionsOf.mpr ⟨table, new, by rw [table_eq]; exact mem_cons_self⟩
      exact orderly.newer other stays first others other_eq start (merged.mem_inputs listed)
        same.symm
    · rw [update_of_ne next]
      by_cases here : index = level
      · subst here
        rw [update_self]
        have all := housed.level index low high
        rw [front] at all
        exact all.sublist (sublist_append_right _ _)
      · rw [update_of_ne here]
        exact housed.level index low high
  · have closed := merged.tieClosed untied housed.closed (Set.Subset.refl _) input_runs
    apply closed.subset
    rintro _ (rfl | ⟨imm, rotated, rfl⟩ | ⟨table, member, rfl⟩)
    · exact .inl (.inl rfl)
    · exact .inl (.inr (.inl ⟨imm, rotated, rfl⟩))
    · rcases mem_tables_finishRound front member with new | old
      · exact .inr ⟨table, new, rfl⟩
      · exact .inl (.inr (.inr ⟨table, old, rfl⟩))
  · intro table member _ inside
    rcases mem_tables_finishRound front member with new | old
    · obtain ⟨input, in_inputs, held⟩ := mem_versionsOf.mp
        (merged.mem_inputs (mem_versionsOf.mpr ⟨table, new, inside⟩))
      exact housed.stored_cases (inputs_in input in_inputs) held
    · exact housed.stored_cases old inside
  · exact housed.idle
  · rintro entry ⟨user, _, rfl | ⟨_, rotated, rfl⟩ | ⟨table, member, rfl⟩, inside⟩ seen
    · exact ⟨entry, mem_points_of_mem user inside, rfl, le_refl _, seen⟩
    · exact ⟨entry, mem_points_of_imm rotated user inside, rfl, le_refl _, seen⟩
    · obtain ⟨_, present, newer, held, same, at_least⟩ := matched table member entry inside seen
      exact ⟨newer, mem_points_of_table present (same ▸ user) held, same, at_least⟩
  · intro running imm rotated entry inside seen
    obtain ⟨table, member, newer, held, same, at_least, newer_seen⟩ :=
      flushed running imm rotated entry inside seen
    obtain ⟨other, present, newest, newest_held, also, further, newest_seen⟩ :=
      matched table member newer held newer_seen
    exact ⟨other, present, newest, newest_held, also.trans same, le_trans at_least further,
      newest_seen⟩
  · exact matched

/-- Claimed numbers and orphaned files change nothing that is read. -/
theorem Housed.exchanges_withOutputs (housed : Housed db) (flushed : Flushed visible db) :
    Exchanges visible db (db.withOutputs result) := by
  have shape : db.withOutputs result =
      { db with
        nextFileId := result.nextFileId
        disk := { db.disk with
          tables := (result.written.foldl Disk.writeTable db.disk).tables } } := by
    unfold Database.withOutputs
    rw [Disk.foldl_writeTable_eq]
  rw [shape]
  exact { housed.exchanges_refl flushed with front := ⟨rfl, rfl, .inl rfl, rfl, rfl, rfl⟩ }

theorem Numbered.withOutputs (numbered : Numbered db) (grows : db.nextFileId ≤ result.nextFileId) :
    Numbered (db.withOutputs result) :=
  { numbered with
    below := fun level table member => lt_of_lt_of_le (numbered.below level table member) grows }

/-- What a round on level 0 needs: no table of level 1 is dropped unmerged, and the next
level stays in order. -/
def Level0Orderly (db : Database) : Prop :=
  ((level0Range db.level0Picked).1 = [] →
      db.overlapping 0 (level0Range db.level0Picked) = []) ∧
    db.RoundOrderly 0 db.level0Picked (level0Range db.level0Picked)
  deriving Decidable

/-- What a round on a deeper level needs. -/
def LevelOrderly (db : Database) (level : Nat) : Prop :=
  ∀ picked ∈ (db.levels level).head?,
    db.RoundOrderly level [picked] (picked.smallestKey, picked.largestKey)
  deriving Decidable

theorem level0Picked_ne_nil (filled : db.levels 0 ≠ []) : db.level0Picked ≠ [] := by
  have positive : 0 < (db.levels 0).length := length_pos_iff.mpr filled
  have taken := level0Take_pos db.options positive
  apply ne_nil_of_length_pos
  rw [level0Picked, length_take]
  omega

end Database

end LightKV
