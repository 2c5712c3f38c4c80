import LightKV.Background

/-!
# Deeper levels are in order

The tables of level 1 and of the levels below it are meant to have disjoint key ranges, in
the order of their first keys: a reader looks into one table of such a level. A round puts
outputs between tables that stay. Those lie on one side of its key range, and the outputs
lie between the keys of its inputs; so only the outputs can meet among themselves. They do
where an output is closed between two versions of one key.
-/

namespace LightKV

open Versions Levels Runs List Function SSTable Database Compacting

/-- The keys of the table are in order, and none of them is empty. -/
structure SSTable.Keyed (table : SSTable) : Prop where
  sorted : KeySorted Entry.key table.entries
  named : ∀ entry ∈ table.entries, entry.key ≠ []

/-- The first key of a table with versions is not above its last one. -/
theorem SSTable.Keyed.smallestKey_le {table : SSTable} (keyed : table.Keyed)
    (filled : table.entries ≠ []) : table.smallestKey ≤ table.largestKey := by
  obtain ⟨_, member, same⟩ := bounds.exists_first filled
  exact same ▸ bounds.le_last keyed.sorted member

namespace Database

variable {db : Database} {round : Round} {added : List SSTable}

/-- No memtable holds the empty key, tables are sorted, and those of the deeper levels hold
versions and have disjoint ranges. -/
structure Parted (db : Database) : Prop where
  memKeys : ∀ entry ∈ db.mem.nodes, entry.key ≠ []
  immKeys : ∀ imm, db.imm = some imm → ∀ entry ∈ imm.nodes, entry.key ≠ []
  keyed : ∀ level, ∀ table ∈ db.levels level, table.Keyed
  filled : ∀ level, 1 ≤ level → ∀ table ∈ db.levels level, table.entries ≠ []
  separated : ∀ level, 1 ≤ level →
    Separated SSTable.smallestKey SSTable.largestKey (db.levels level)

theorem parted_fresh {options : Options} : Parted (fresh options) where
  memKeys := nofun
  immKeys := nofun
  keyed := nofun
  filled := nofun
  separated _ _ := List.Pairwise.nil

section

variable (parted : Parted db)
include parted

theorem Parted.ranges {level : Nat} (deeper : 1 ≤ level) :
    ∀ table ∈ db.levels level, table.smallestKey ≤ table.largestKey :=
  fun table member => (parted.keyed level table member).smallestKey_le
    (parted.filled level deeper table member)

/-! ## Writes and flushes -/

theorem Parted.commit (named : ∀ entry ∈ record.points, entry.key ≠ []) :
    Parted (db.commit record) :=
  { parted with
    memKeys := by
      intro entry member
      rcases mem_nodes_commit.mp member with new | old
      · exact named entry new
      · exact parted.memKeys entry old }

theorem Parted.claim : Parted db.claim := { parted with }

theorem Parted.withVLog : Parted (db.withVLog log) :=
  { parted with }

theorem Parted.put (named : key ≠ []) : Parted (db.put key value) := by
  have points : ∀ entry ∈ (WALRecord.value db.lastSeq key
      (db.vlog.storeValue db.disk.vlogs db.options value).1).points, entry.key ≠ [] := by
    intro _ member
    rw [mem_singleton.mp member]
    exact named
  exact parted.claim.withVLog.commit points

theorem Parted.delete (named : key ≠ []) : Parted (db.delete key) := by
  have points : ∀ entry ∈ (WALRecord.deletion db.lastSeq key).points, entry.key ≠ [] := by
    intro _ member
    rw [mem_singleton.mp member]
    exact named
  exact parted.claim.commit points

theorem Parted.triggerFlush : Parted db.triggerFlush := by
  unfold Database.triggerFlush
  split
  · exact parted
  · refine ⟨nofun, ?_, parted.keyed, parted.filled, parted.separated⟩
    rintro _ ⟨⟩
    exact parted.memKeys

theorem Parted.flushRelease : Parted db.flushRelease := by
  unfold Database.flushRelease
  split
  · exact { parted with immKeys := nofun }
  · exact parted

end

/-- A flushed table is sorted. -/
theorem keyed_flushed {options : Options} {fileId : Nat} {sorter : StdSort internalKeyLess}
    {mem : MemTable} (named : ∀ entry ∈ mem.nodes, entry.key ≠ []) :
    (TableBuilder.build options fileId (flushEntries sorter mem)).Keyed := by
  constructor
  · rw [TableBuilder.entries_build]
    exact keySorted_sortEntries sorter
  intro _ member
  rw [TableBuilder.entries_build] at member
  obtain ⟨original, listed, same⟩ := exists_of_mem_sortEntries sorter member
  rw [← same]
  rcases mem_append.mp listed with node | marked
  · exact named original node
  · obtain ⟨_, _, rfl⟩ := mem_map.mp marked
    simp [tombstoneEntry, marker]

theorem Parted.flushWrite (parted : Parted db) :
    Parted (db.flushWrite sorter) := by
  rcases db.flushWrite_cases sorter with same | ⟨mem, rotated, written⟩
  · rw [same]
    exact parted
  rw [written]
  have deeper : ∀ level, 1 ≤ level →
      (db.writeLevel0Table sorter mem).levels level = db.levels level :=
    fun _ positive => update_of_ne (ne_of_gt positive) _ _
  refine ⟨parted.memKeys, ?_, ?_, ?_, ?_⟩
  · intro imm rotated_later
    exact parted.immKeys imm rotated_later
  · intro level table member
    rcases mem_update_append.mp member with old | ⟨_, new⟩
    · exact parted.keyed level table old
    · rw [mem_singleton.mp new]
      exact keyed_flushed (parted.immKeys mem rotated)
  · intro level positive table member
    exact parted.filled level positive table (deeper level positive ▸ member)
  · intro level positive
    exact (deeper level positive).symm ▸ parted.separated level positive

/-! ## The second section -/

/-- The outputs of a round are sorted, hold versions, and no key is in two of them. -/
structure Layers (round : Round) (added : List SSTable) : Prop where
  subset : ∀ table ∈ added, ∀ entry ∈ table.entries, entry ∈ versionsOf round.tables
  sorted : ∀ table ∈ added, KeySorted Entry.key table.entries
  filled : ∀ table ∈ added, table.entries ≠ []
  apart : added.Pairwise fun front back =>
    ∀ first ∈ front.entries, ∀ second ∈ back.entries, first.key < second.key

/-- A table that stays in the next level does not meet the range. -/
theorem not_overlaps_of_detached (attached : Attached db round)
    (stays : table ∈ round.detached db.levels (round.level + 1)) :
    overlaps round.range table = false := by
  cases kind_eq : round.kind with
  | oldest =>
    have zero : round.level = 0 := congrArg RoundKind.level kind_eq
    rw [Round.detached, kind_eq, zero] at stays
    simpa using (mem_filter.mp stays).2
  | front _ =>
    rw [Round.detached, kind_eq] at stays
    dsimp only at stays
    rw [detach_apply, mem_filter, decide_eq_true_eq] at stays
    rcases attached.chosen with chosen | ⟨impossible, _⟩
    · by_contra meets
      have listed : table ∈ round.overlapping := by
        rw [chosen]
        exact mem_filter.mpr ⟨stays.1, by simpa using meets⟩
      exact stays.2 ⟨round.level + 1, table⟩ (mem_append_right _ (mem_map_of_mem listed)) rfl rfl
    · rw [kind_eq] at impossible
      cases impossible

/-- A table that stays is on one side of everything that is merged. -/
theorem Parted.beside_merged (parted : Parted db) (attached : Attached db round)
    (within : ∀ table ∈ round.picked, Within round.range table)
    (stays : table ∈ round.detached db.levels (round.level + 1)) :
    (∀ entry ∈ versionsOf round.tables, table.largestKey < entry.key) ∨
      ∀ entry ∈ versionsOf round.tables, entry.key < table.smallestKey := by
  have deeper : 1 ≤ round.level + 1 := Nat.le_add_left _ _
  have present : table ∈ db.levels (round.level + 1) := round.detached_sublist.mem stays
  have own_range := parted.ranges deeper table present
  have merged : ∀ input ∈ round.tables, input ∈ round.picked ++
      (db.levels (round.level + 1)).filter (overlaps round.range) := by
    intro input member
    rcases attached.chosen with chosen | ⟨_, _, nothing⟩
    · rwa [Round.tables, chosen] at member
    · rw [Round.tables, nothing, append_nil] at member
      exact mem_append_left _ member
  have sides : (∀ input ∈ round.picked ++ (db.levels (round.level + 1)).filter
        (overlaps round.range), ∀ entry ∈ input.entries, table.largestKey < entry.key) ∨
      ∀ input ∈ round.picked ++ (db.levels (round.level + 1)).filter (overlaps round.range),
        ∀ entry ∈ input.entries, entry.key < table.smallestKey := by
    refine one_side (not_overlaps_of_detached attached stays) ?_ ?_ ?_
    · exact fun low input picked entry inside =>
        lt_of_lt_of_le low (within input picked entry inside).1
    · exact fun high input picked entry inside =>
        lt_of_le_of_lt (within input picked entry inside).2 high
    · intro input in_level different
      have sorted := (parted.keyed _ input in_level).sorted
      rcases (parted.separated _ deeper).apart present in_level different.symm with
        before | reversed
      · exact .inl ⟨fun _ inside => lt_of_lt_of_le before (bounds.first_le sorted inside),
          le_trans own_range (le_of_lt before)⟩
      · exact .inr ⟨fun _ inside => lt_of_le_of_lt (bounds.le_last sorted inside) reversed,
          le_trans (le_of_lt reversed) own_range⟩
  refine sides.imp ?_ ?_ <;>
  · intro all entry member
    obtain ⟨input, inside, held⟩ := mem_versionsOf.mp member
    exact all input (merged input inside) entry held

theorem Layers.pairwise_apart (layers : Layers round added) :
    added.Pairwise (Apart SSTable.smallestKey SSTable.largestKey) := by
  refine (List.Pairwise.and_mem.mp layers.apart).imp ?_
  rintro front back ⟨in_front, in_back, ordered⟩
  obtain ⟨last, last_in, last_eq⟩ := bounds.exists_last (layers.filled front in_front)
  obtain ⟨first, first_in, first_eq⟩ := bounds.exists_first (layers.filled back in_back)
  exact .inl (last_eq ▸ first_eq ▸ ordered last last_in first first_in)

/-- The outputs go between the tables that stay. -/
theorem Parted.installRound (parted : Parted db) (attached : Attached db round)
    (within : ∀ table ∈ round.picked, Within round.range table) (layers : Layers round added) :
    Parted (db.installRound round added) := by
  have old : ∀ {level : Nat} {table : SSTable}, table ∈ round.detached db.levels level →
      table ∈ db.levels level := fun member => round.detached_sublist.mem member
  have new_keyed : ∀ table ∈ added, table.Keyed := by
    intro table member
    refine ⟨layers.sorted table member, fun entry inside => ?_⟩
    obtain ⟨input, merged, held⟩ := mem_versionsOf.mp (layers.subset table member entry inside)
    rcases mem_append.mp merged with picked | overlapping
    · exact (parted.keyed _ input (attached.picked_subset input picked)).named entry held
    · exact (parted.keyed _ input (attached.overlapping_subset input overlapping)).named entry held
  refine ⟨parted.memKeys, parted.immKeys, ?_, ?_, ?_⟩
  · intro level table member
    rcases mem_levels_installRound.mp member with ⟨_, new⟩ | left
    · exact new_keyed table new
    · exact parted.keyed level table (old left)
  · intro level deeper table member
    rcases mem_levels_installRound.mp member with ⟨_, new⟩ | left
    · exact layers.filled table new
    · exact parted.filled level deeper table (old left)
  · intro level deeper
    have before : Separated smallestKey largestKey (round.detached db.levels level) :=
      (parted.separated level deeper).sublist round.detached_sublist
    rw [levels_installRound]
    by_cases next : level = round.level + 1
    · subst next
      rw [update_self]
      refine before.insertFiles (fun table left => parted.ranges deeper table (old left))
        (fun table new => (new_keyed table new).smallestKey_le (layers.filled table new))
        layers.pairwise_apart ?_
      intro table new _ stays
      rcases parted.beside_merged attached within stays with below | above
      · obtain ⟨first, first_in, first_eq⟩ := bounds.exists_first (layers.filled table new)
        exact .inr (first_eq ▸ below first (layers.subset table new first first_in))
      · obtain ⟨last, last_in, last_eq⟩ := bounds.exists_last (layers.filled table new)
        exact .inl (last_eq ▸ above last (layers.subset table new last last_in))
    · rwa [update_of_ne next]

end Database

/-! ## Runs -/

namespace Compacting

variable {state : Compacting} {round : Round} {added : List SSTable}

/-- The merge of what is selected closes no output between two versions of one key. -/
def UncutStage (options : Options) : Stage → Prop
  | .captured round =>
      Uncut options (targetFileSize options (round.level + 1)) noSnapshot round.tables
  | _ => True

instance (options : Options) : DecidablePred (UncutStage options) := by
  intro event
  unfold UncutStage
  split <;> infer_instance

/-- Puts and deletes have a key, and a merge closes no output between two versions of one. -/
def Uncutting (state : Compacting) : Action → Prop
  | .call (.put key _) => key ≠ []
  | .call (.delete key) => key ≠ []
  | .call _ => False
  | .merge => UncutStage state.db.options state.stage
  | _ => True

instance (state : Compacting) : DecidablePred state.Uncutting := by
  intro event
  unfold Uncutting
  split <;> infer_instance

/-- The levels are in order, and so is what a round under way will insert. -/
structure Tidy (state : Compacting) : Prop extends Sound state where
  parted : state.db.Parted
  within : ∀ round, (state.stage = .captured round ∨ ∃ added, state.stage = .merged round added) →
    ∀ table ∈ round.picked, Within round.range table
  layers : ∀ round added, state.stage = .merged round added → Database.Layers round added

/-- The picked tables are in the range that was computed for them. -/
theorem within_capture {db : Database} (parted : db.Parted)
    (captured : db.capture kind = some round) :
    ∀ table ∈ round.picked, Within round.range table := by
  obtain ⟨_, attached⟩ := attached_capture captured
  have keyed : ∀ table ∈ round.picked, table.Keyed :=
    fun table member => parted.keyed _ table (attached.picked_subset table member)
  cases kind with
  | oldest =>
    have range_eq : round.range = level0Range round.picked := by
      by_cases empty : (db.levels 0).isEmpty = true
      · simp [capture, empty] at captured
      · simp only [capture, if_neg empty, Option.some.injEq] at captured
        rw [← captured]
    rw [range_eq]
    exact within_level0Range (fun table member => (keyed table member).sorted)
      fun table member => (keyed table member).named
  | front level =>
    have range_eq : ∀ table ∈ round.picked,
        round.range = (table.smallestKey, table.largestKey) := by
      by_cases deep : numLevels ≤ level + 1
      · simp [capture, deep] at captured
      cases files : db.levels level with
      | nil => simp [capture, files] at captured
      | cons _ _ =>
        simp only [capture, files, if_neg deep, Option.some.injEq] at captured
        subst captured
        intro _ member
        rw [mem_singleton.mp member]
    intro table member
    rw [range_eq table member]
    exact within_own (keyed table member).sorted

/-- The outputs of a merge that cuts no key. -/
theorem layers_merge {db : Database} (parted : db.Parted) (attached : Attached db round)
    (succeeded : (db.mergeRound round).status.isOk = true)
    (uncut : Uncut db.options (targetFileSize db.options (round.level + 1)) noSnapshot
      round.tables) : Database.Layers round (db.mergeRound round).added := by
  have ok : (db.mergeRound round).status = .ok := by
    cases status : (db.mergeRound round).status with
    | ok => rfl
    | _ =>
      rw [status] at succeeded
      cases succeeded
  have some_input : round.tables ≠ [] := by
    intro empty
    exact attached.filled (append_eq_nil_iff.mp empty).1
  have sorted : ∀ table ∈ round.tables, KeySorted Entry.key table.entries := by
    intro table member
    rcases mem_append.mp member with picked | overlapping
    · exact (parted.keyed _ table (attached.picked_subset table picked)).sorted
    · exact (parted.keyed _ table (attached.overlapping_subset table overlapping)).sorted
  obtain ⟨groups, apart⟩ := compactTo_layered ok some_input sorted uncut
  refine ⟨?_, fun table member => (groups table member).1,
    fun table member => (groups table member).2, apart⟩
  intro table member _ inside
  exact (doCompaction_cut _ _ _ _ _).2.subset (mem_versionsOf.mpr ⟨table, member, inside⟩)

theorem tidy_start {options : Options} : Tidy (start options) where
  toSound := sound_start
  parted := parted_fresh
  within := by rintro _ (impossible | ⟨_, impossible⟩) <;> cases impossible
  layers := nofun

theorem Tidy.parted_step (tidy : Tidy state)
    (uncutting : state.Uncutting action) : (state.step sorter action).db.Parted := by
  cases action with
  | call made =>
    cases made with
    | put _ value => exact tidy.parted.put uncutting
    | delete _ => exact tidy.parted.delete uncutting
    | deleteRange _ _ => cases uncutting
    | batchWrite _ => cases uncutting
  | triggerFlush => exact tidy.parted.triggerFlush
  | flushWrite => exact tidy.parted.flushWrite
  | flushRelease => exact tidy.parted.flushRelease
  | capture _ =>
    simp only [step]
    split <;> exact tidy.parted
  | merge =>
    simp only [step]
    split
    · exact ⟨tidy.parted.memKeys, tidy.parted.immKeys, tidy.parted.keyed,
        tidy.parted.filled, tidy.parted.separated⟩
    · exact tidy.parted
  | install =>
    simp only [step]
    split
    · rename_i round added stage
      exact tidy.parted.installRound (tidy.merged round added stage).1
        (tidy.within round (.inr ⟨added, stage⟩)) (tidy.layers round added stage)
    · exact tidy.parted
  | giveUp => exact tidy.parted

/-- Outputs behind an action were there before, or the action was their merge. -/
theorem merged_of_step
    (merged : (state.step sorter action).stage = .merged round added) :
    state.stage = .merged round added ∨
      action = .merge ∧ state.stage = .captured round ∧
        (state.db.mergeRound round).status.isOk = true ∧
          added = (state.db.mergeRound round).added := by
  cases action with
  | call _ | triggerFlush | flushWrite | flushRelease => exact .inl merged
  | capture _ | install =>
    simp only [step] at merged
    split at merged
    · cases merged
    · exact .inl merged
  | merge =>
    simp only [step] at merged
    split at merged
    · rename_i stage
      split at merged
      · rename_i succeeded
        obtain ⟨rfl, rfl⟩ := Stage.merged.inj merged
        exact .inr ⟨rfl, stage, succeeded, rfl⟩
      · cases merged
    · exact .inl merged
  | giveUp => cases merged

theorem Tidy.step (tidy : Tidy state)
    (uncutting : state.Uncutting action) : Tidy (state.step sorter action) where
  toSound := tidy.toSound.step
  parted := tidy.parted_step uncutting
  within round busy := by
    rcases underWay_of_step busy with before | ⟨_, rfl, captured⟩
    · exact tidy.within round before
    · exact within_capture tidy.parted captured
  layers round added merged := by
    rcases merged_of_step merged with before | ⟨rfl, stage, succeeded, rfl⟩
    · exact tidy.layers round added before
    · simp only [Uncutting, stage] at uncutting
      exact layers_merge tidy.parted (tidy.captured round stage) succeeded uncutting

/-- Two keys, each merged into level 1 in a round of its own. -/
def twoRounds : List Action :=
  flushedPut [98] [1] ++ [.capture .oldest, .merge, .install] ++ flushedPut [97] [2] ++
    [.capture .oldest, .merge, .install]

/-- The two flushes of a key, with the sections of a round behind them. -/
def cutRound (key : Bytes) : List Action :=
  flushedPut key [1] ++ .call (.put key [2]) :: flushedPut [122] [3] ++
    [.capture .oldest, .merge, .install]

theorem levels_cutRound (long : 2 ^ 21 ≤ key.length) (below : key < [122]) :
    (run (step sorter) (start smallTables) (cutRound key)).db.levels 1 = staleLevel key := by
  have sections : (staleRun key).mapM ofEvent =
      some (((cutRound key).take 9).map ([·]) ++ [[.capture .oldest, .merge, .install]]) := rfl
  have joined : (((cutRound key).take 9).map ([·]) ++
      [[Action.capture .oldest, .merge, .install]]).flatten = cutRound key := rfl
  have whole := @run_ofEvents sorter (.fresh smallTables) _ _ sections
  obtain ⟨picked, _, _, later, levels⟩ := levels_staleRun sorter long below
  rw [joined, later] at whole
  rw [start, whole, levels, update_self]

/-- Two versions of a key fill two tables, whose ranges are equal. -/
theorem not_separated_cutRound (long : 2 ^ 21 ≤ key.length) (below : key < [122]) :
    ¬ Separated SSTable.smallestKey SSTable.largestKey
      ((run (step sorter) (start Database.smallTables) (cutRound key)).db.levels 1) := by
  rw [levels_cutRound long below]
  intro separated
  have before := (pairwise_cons.mp separated).1 _ mem_cons_self
  simp [smallestKey, largestKey] at before

end Compacting

end LightKV
