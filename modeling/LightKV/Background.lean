import LightKV.Archive
import LightKV.CompactionPacking
import LightKV.MapRefinement

/-!
# Rounds in two sections

A round holds the lock of the levels twice. In the first section it selects its inputs and
leaves them in place; then it merges them without the lock; in the second section it takes
tables out of the levels and inserts the outputs. Between the sections clients write and
flushes append tables to level 0.

`DoLevelCompaction` takes out the tables with the numbers of its inputs.
`DoLevel0Compaction` takes the front of level 0 and, of level 1, every table that overlaps
its key range. These are the inputs unless the range begins with the empty key: then no
table of level 1 was selected.
-/

namespace LightKV

open Versions Levels Runs List Function Option Database

/-! ## The sections -/

/-- The two kinds of rounds. -/
inductive RoundKind where
  /-- `DoLevel0Compaction`. -/
  | oldest
  /-- `DoLevelCompaction`. -/
  | front (level : Nat)
  deriving DecidableEq, Repr

/-- The level a round takes its tables from. -/
def RoundKind.level : RoundKind → Nat
  | .oldest => 0
  | .front level => level

/-- What a round has selected: tables of a level, their key range, and tables of the next
level. -/
structure Round where
  kind : RoundKind
  picked : List SSTable
  range : Bytes × Bytes
  overlapping : List SSTable
  deriving DecidableEq, Repr

namespace Round

/-- The level of the picked tables. -/
def level (round : Round) : Nat :=
  round.kind.level

/-- The tables that are merged. -/
def tables (round : Round) : List SSTable :=
  round.picked ++ round.overlapping

/-- `inputs`. -/
def inputs (round : Round) : List InputFile :=
  round.picked.map (InputFile.mk round.level) ++
    round.overlapping.map (InputFile.mk (round.level + 1))

/-- The levels when the second section has taken tables out. -/
def detached (round : Round) (levels : Nat → List SSTable) : Nat → List SSTable :=
  match round.kind with
  | .oldest =>
      Function.update (Function.update levels 0 ((levels 0).drop round.picked.length)) 1
        ((levels 1).filter fun table => !overlaps round.range table)
  | .front _ => Database.detach levels round.inputs

end Round

namespace Database

/-- The first section. -/
def capture (db : Database) : RoundKind → Option Round
  | .oldest =>
      if (db.levels 0).isEmpty then none
      else some ⟨.oldest, db.level0Picked, level0Range db.level0Picked, db.level0Overlapping⟩
  | .front level =>
      if numLevels ≤ level + 1 then none
      else
        match db.levels level with
        | [] => none
        | picked :: _ =>
            some ⟨.front level, [picked], (picked.smallestKey, picked.largestKey),
              db.overlapping level (picked.smallestKey, picked.largestKey)⟩

/-- The merge. -/
def mergeRound (db : Database) (round : Round) : CompactionResult :=
  doCompaction db.options noSnapshot db.nextFileId round.tables (round.level + 1)

/-- The second section, with what follows it. -/
def installRound (db : Database) (round : Round) (added : List SSTable) : Database :=
  { db with levels := round.detached db.levels }.install (round.level + 1) added round.inputs

/-- The sections of a round with nothing between them. -/
def wholeRound (db : Database) (kind : RoundKind) : Status × Database :=
  match db.capture kind with
  | none => (.ok, db)
  | some round =>
      let result := db.mergeRound round
      if result.status.isOk then (.ok, (db.withOutputs result).installRound round result.added)
      else (result.status, db.withOutputs result)

theorem doLevel0Compaction_eq_sections {db : Database} :
    db.doLevel0Compaction = db.wholeRound .oldest := by
  unfold doLevel0Compaction wholeRound capture
  split <;> rfl

theorem doLevelCompaction_eq_sections {db : Database} :
    db.doLevelCompaction level = db.wholeRound (.front level) := by
  unfold doLevelCompaction wholeRound
  by_cases deep : numLevels ≤ level + 1
  · rw [if_pos deep, show db.capture (.front level) = none from if_pos deep]
  rw [if_neg deep]
  cases files : db.levels level with
  | nil =>
    have nothing : db.capture (.front level) = none := by simp [capture, files]
    rw [nothing]
  | cons picked _ =>
    have taken : db.capture (.front level) = some ⟨.front level, [picked],
        (picked.smallestKey, picked.largestKey),
        db.overlapping level (picked.smallestKey, picked.largestKey)⟩ := by
      simp [capture, files, deep]
    rw [taken]
    rfl

end Database

/-! ## Interleavings -/

/-- Where the background thread is. -/
inductive Stage where
  | idle
  | captured (round : Round)
  | merged (round : Round) (added : List SSTable)
  deriving DecidableEq, Repr

/-- A database with its background thread. -/
structure Compacting where
  db : Database
  stage : Stage

namespace Compacting

/-- What can happen: calls, rotations and flushes at any time, and the sections of rounds one
after another. A merge that fails and a round that gives up return to the start. -/
inductive Action where
  | call (made : Call)
  | triggerFlush
  | flushWrite
  | flushRelease
  | capture (kind : RoundKind)
  | merge
  | install
  | giveUp
  deriving DecidableEq, Repr

/-- One action. -/
def step (sorter : StdSort internalKeyLess) (state : Compacting) : Action → Compacting
  | .call made => { state with db := state.db.call made }
  | .triggerFlush => { state with db := state.db.triggerFlush }
  | .flushWrite => { state with db := state.db.flushWrite sorter }
  | .flushRelease => { state with db := state.db.flushRelease }
  | .capture kind =>
      match state.stage, state.db.capture kind with
      | .idle, some round => { state with stage := .captured round }
      | _, _ => state
  | .merge =>
      match state.stage with
      | .captured round =>
          let result := state.db.mergeRound round
          ⟨state.db.withOutputs result,
            if result.status.isOk then .merged round result.added else .idle⟩
      | _ => state
  | .install =>
      match state.stage with
      | .merged round added => ⟨state.db.installRound round added, .idle⟩
      | _ => state
  | .giveUp => { state with stage := .idle }

/-- The database on an empty directory, with an idle thread. -/
def start (options : Options) : Compacting :=
  ⟨.fresh options, .idle⟩

/-- The sections of a round without anything between them are the round. -/
theorem run_sections {sorter : StdSort internalKeyLess} {db : Database} :
    run (step sorter) ⟨db, .idle⟩ [.capture kind, .merge, .install] =
      ⟨(db.wholeRound kind).2, .idle⟩ := by
  simp only [run, foldl_cons, foldl_nil, wholeRound, step]
  cases db.capture kind with
  | none => rfl
  | some round =>
    dsimp only
    by_cases succeeded : (db.mergeRound round).status.isOk = true
    · rw [if_pos succeeded, if_pos succeeded]
    · rw [if_neg succeeded, if_neg succeeded]

/-- The actions of an event. A claim of numbers by a failed merge and a restart have none. -/
def ofEvent : Event → Option (List Action)
  | .call made => some [.call made]
  | .maintain .triggerFlush => some [.triggerFlush]
  | .maintain .flushWrite => some [.flushWrite]
  | .maintain .flushRelease => some [.flushRelease]
  | .maintain .level0Compaction => some [.capture .oldest, .merge, .install]
  | .maintain (.levelCompaction level) => some [.capture (.front level), .merge, .install]
  | .maintain (.compactionError _) | .crash _ => none

/-- Without anything between the sections of a round, the actions do what the events do. -/
theorem run_ofEvent {db : Database} (sections : ofEvent event = some actions) :
    run (step sorter) ⟨db, .idle⟩ actions = ⟨db.step sorter event, .idle⟩ := by
  cases event with
  | call _ =>
    obtain rfl := some.inj sections
    rfl
  | crash _ => cases sections
  | maintain background =>
    cases background with
    | level0Compaction =>
      obtain rfl := some.inj sections
      rw [run_sections, ← doLevel0Compaction_eq_sections]
      rfl
    | levelCompaction _ =>
      obtain rfl := some.inj sections
      rw [run_sections, ← doLevelCompaction_eq_sections]
      rfl
    | compactionError _ => cases sections
    | triggerFlush | flushWrite | flushRelease =>
      obtain rfl := some.inj sections
      rfl

theorem run_ofEvents (sorter : StdSort internalKeyLess) {db : Database} {events : List Event}
    {actions : List (List Action)} (sections : events.mapM ofEvent = some actions) :
    run (step sorter) ⟨db, .idle⟩ actions.flatten =
      ⟨run (Database.step sorter) db events, .idle⟩ := by
  induction events generalizing db actions with
  | nil =>
    obtain rfl := some.inj sections
    rfl
  | cons _ _ ih =>
    rw [mapM_cons] at sections
    obtain ⟨_, first_eq, others⟩ := bind_eq_some_iff.mp sections
    obtain ⟨_, rest_eq, joined⟩ := bind_eq_some_iff.mp others
    obtain rfl := some.inj joined
    rw [flatten_cons, run_append, run_ofEvent first_eq, ih rest_eq]
    rfl

end Compacting

/-! ## Selected tables stay where they are -/

/-- The selection of a round still describes the levels. -/
structure Attached (db : Database) (round : Round) : Prop where
  inner : round.level + 1 < numLevels
  filled : round.picked ≠ []
  front : ∃ rest, db.levels round.level = round.picked ++ rest
  chosen : round.overlapping = (db.levels (round.level + 1)).filter (overlaps round.range) ∨
    round.kind = .oldest ∧ round.range.1 = [] ∧ round.overlapping = []

namespace Database

variable {db later : Database} {round : Round}

/-- The captured tables stand in the levels. -/
theorem attached_capture (captured : db.capture kind = some round) :
    round.kind = kind ∧ Attached db round := by
  cases kind with
  | oldest =>
    by_cases empty : (db.levels 0).isEmpty = true
    · rw [show db.capture .oldest = none from if_pos empty] at captured
      cases captured
    rw [show db.capture .oldest = some _ from if_neg empty] at captured
    obtain rfl := some.inj captured
    have nonempty : db.levels 0 ≠ [] := by simpa using empty
    have inner : 0 + 1 < numLevels := by decide
    refine ⟨rfl, inner, level0Picked_ne_nil nonempty, ⟨_, db.level0Picked_append.symm⟩, ?_⟩
    by_cases unbounded : (level0Range db.level0Picked).1 = []
    · exact .inr ⟨rfl, unbounded, if_pos unbounded⟩
    · exact .inl (if_neg unbounded)
  | front level =>
    by_cases deep : numLevels ≤ level + 1
    · rw [show db.capture (.front level) = none from if_pos deep] at captured
      cases captured
    cases files : db.levels level with
    | nil => simp [capture, files] at captured
    | cons _ rest =>
      simp only [capture, files, if_neg deep, some.injEq] at captured
      subst captured
      exact ⟨rfl, Nat.lt_of_not_le deep, cons_ne_nil _ _, ⟨rest, files⟩, .inl rfl⟩

/-- Tables are appended to level 0 and nothing else happens to the levels. -/
def Appended (db later : Database) : Prop :=
  ∃ added, later.levels = Function.update db.levels 0 (db.levels 0 ++ added)

theorem appended_of_levels (same : later.levels = db.levels) : Appended db later :=
  ⟨[], by rw [same, append_nil, update_eq_self]⟩

/-- A flush only appends to level 0. -/
theorem appended_flushWrite (db : Database) :
    Appended db (db.flushWrite sorter) := by
  rcases db.flushWrite_cases sorter with same | ⟨_, _, written⟩
  · rw [same]
    exact appended_of_levels rfl
  · rw [written]
    exact ⟨[_], rfl⟩

end Database

/-- What is appended to level 0 comes behind the picked tables. -/
theorem Attached.append {round : Round} (attached : Attached db round)
    (appended : db.Appended later) : Attached later round := by
  obtain ⟨_, levels_eq⟩ := appended
  obtain ⟨rest, front⟩ := attached.front
  have next : later.levels (round.level + 1) = db.levels (round.level + 1) := by
    rw [levels_eq, update_of_ne (Nat.succ_ne_zero _)]
  refine ⟨attached.inner, attached.filled, ?_, next ▸ attached.chosen⟩
  rw [levels_eq]
  by_cases zero : round.level = 0
  · rw [zero, update_self, ← zero, front, append_assoc]
    exact ⟨_, rfl⟩
  · rw [update_of_ne zero]
    exact ⟨rest, front⟩

/-- The second section takes tables out and leaves the others in their order. -/
theorem Round.detached_sublist (round : Round) {levels : Nat → List SSTable} {level : Nat} :
    (round.detached levels level).Sublist (levels level) := by
  unfold Round.detached
  cases round.kind with
  | oldest =>
    rcases level with _ | _ | _
    · exact drop_sublist _ _
    · exact filter_sublist
    · exact List.Sublist.refl _
  | front _ =>
    dsimp only
    rw [detach_apply]
    exact filter_sublist

namespace Attached

variable {db : Database} {round : Round}

section

variable (attached : Attached db round)
include attached

theorem picked_subset : ∀ table ∈ round.picked, table ∈ db.levels round.level := by
  obtain ⟨_, front⟩ := attached.front
  intro _ member
  rw [front]
  exact mem_append_left _ member

theorem overlapping_subset : ∀ table ∈ round.overlapping, table ∈ db.levels (round.level + 1) := by
  intro _ member
  rcases attached.chosen with chosen | ⟨_, _, nothing⟩
  · rw [chosen] at member
    exact (mem_filter.mp member).1
  · rw [nothing] at member
    cases member

/-- Inputs are tables of their levels. -/
theorem mem_of_input (member : input ∈ round.inputs) : input.table ∈ db.levels input.level := by
  rcases mem_append.mp member with picked | overlapping
  · obtain ⟨table, inside, rfl⟩ := mem_map.mp picked
    exact attached.picked_subset table inside
  · obtain ⟨table, inside, rfl⟩ := mem_map.mp overlapping
    exact attached.overlapping_subset table inside

/-- A table that a round on a deeper level takes out is an input. -/
theorem input_of_detach (numbered : db.Numbered) (present : table ∈ db.levels level)
    (gone : table ∉ Database.detach db.levels round.inputs level) :
    ⟨level, table⟩ ∈ round.inputs := by
  rw [detach_apply, mem_filter, not_and, decide_eq_true_eq] at gone
  obtain ⟨input, member, at_level, same⟩ : ∃ input ∈ round.inputs, input.level = level ∧
      table.fileId = input.table.fileId := by
    by_contra apart
    refine gone present fun input member at_level same => apart ⟨input, member, at_level, same⟩
  have equal := (numbered.unique _ _ table present input.table (attached.mem_of_input member)
    same).2
  rw [equal, ← at_level]
  exact member

/-- A table that the second section takes out is an input, or it is a table of level 1 in the
range of a round on level 0 whose range begins with the empty key. -/
theorem input_of_detached (numbered : db.Numbered) (present : table ∈ db.levels level)
    (gone : table ∉ round.detached db.levels level) :
    ⟨level, table⟩ ∈ round.inputs ∨
      round.kind = .oldest ∧ round.range.1 = [] ∧ level = 1 ∧
        overlaps round.range table = true := by
  cases kind_eq : round.kind with
  | front _ =>
    rw [Round.detached, kind_eq] at gone
    exact .inl (attached.input_of_detach numbered present gone)
  | oldest =>
    have zero : round.level = 0 := congrArg RoundKind.level kind_eq
    rw [Round.detached, kind_eq] at gone
    rcases level with _ | _ | _
    · -- Of level 0 the picked tables go.
      obtain ⟨_, front⟩ := attached.front
      rw [zero] at front
      rw [front] at present
      rcases mem_append.mp present with picked | left
      · refine .inl (mem_append_left _ ?_)
        rw [zero]
        exact mem_map_of_mem picked
      · have stays : table ∈ (db.levels 0).drop round.picked.length := by
          rw [front, drop_left]
          exact left
        exact absurd stays gone
    · -- Of level 1 those in the range go.
      have overlap : overlaps round.range table = true := by
        by_contra apart
        exact gone (mem_filter.mpr ⟨present, by simpa using apart⟩)
      rcases attached.chosen with chosen | ⟨_, unbounded, _⟩
      · refine .inl (mem_append_right _ ?_)
        rw [chosen, zero]
        exact mem_map_of_mem (mem_filter.mpr ⟨present, overlap⟩)
      · exact .inr ⟨rfl, unbounded, rfl, overlap⟩
    · exact absurd present gone

end

end Attached

namespace Database

variable {db later : Database} {round : Round} {added : List SSTable}

/-! ## Numbers -/

/-- The outputs of a merge have numbers of their own. -/
structure Unused (db : Database) (added : List SSTable) : Prop where
  distinct : (added.map SSTable.fileId).Nodup
  below : ∀ table ∈ added, table.fileId < db.nextFileId
  apart : ∀ table ∈ added, ∀ level, ∀ old ∈ db.levels level, old.fileId ≠ table.fileId

theorem Unused.congr (unused : Unused db added) (levels : later.levels = db.levels)
    (grows : db.nextFileId ≤ later.nextFileId) : Unused later added where
  distinct := unused.distinct
  below table member := lt_of_lt_of_le (unused.below table member) grows
  apart table member := levels ▸ unused.apart table member

theorem Unused.flushWrite (unused : Unused db added) :
    Unused (db.flushWrite sorter) added := by
  rcases db.flushWrite_cases sorter with same | ⟨_, _, written⟩
  · rw [same]
    exact unused
  rw [written]
  refine ⟨unused.distinct, fun table member => Nat.lt_succ_of_lt (unused.below table member), ?_⟩
  intro table member level old present
  rcases (gains_append rfl).mem present with ⟨_, new⟩ | before
  · rw [mem_singleton.mp new]
    exact ne_of_gt (unused.below table member)
  · exact unused.apart table member level old before

theorem Numbered.unused_merge (numbered : Numbered db) :
    Unused (db.withOutputs (db.mergeRound round)) (db.mergeRound round).added := by
  obtain ⟨distinct, fresh, _, registered⟩ := @doCompaction_fresh db.options noSnapshot
    db.nextFileId (round.level + 1) round.tables
  refine ⟨distinct.sublist (registered.map _),
    fun table member => (fresh table (registered.mem member)).2, ?_⟩
  intro table member level old present _
  have bound := numbered.below level old present
  have new := (fresh table (registered.mem member)).1
  omega

/-- The levels behind the second section. -/
theorem levels_installRound :
    (db.installRound round added).levels =
      update (round.detached db.levels) (round.level + 1)
        (insertFiles SSTable.smallestKey added (round.detached db.levels (round.level + 1))) :=
  foldl_insertIntoLevel (Nat.succ_ne_zero _)

/-- What an installation leaves: its outputs and what it did not take. -/
theorem mem_levels_installRound :
    table ∈ (db.installRound round added).levels level ↔
      level = round.level + 1 ∧ table ∈ added ∨ table ∈ round.detached db.levels level := by
  rw [levels_installRound]
  by_cases next : level = round.level + 1
  · subst next
    rw [update_self, mem_insertFiles]
    simp
  · simp [next]

theorem gains_installRound :
    Gains db (db.installRound round added) (round.level + 1) added := by
  intro level
  rw [levels_installRound]
  by_cases next : level = round.level + 1
  · subst next
    rw [update_self, if_pos rfl]
    exact ⟨_, round.detached_sublist, insertFiles_perm _⟩
  · rw [update_of_ne next, if_neg next]
    exact ⟨_, round.detached_sublist, List.Perm.refl _⟩

theorem Numbered.installRound (numbered : Numbered db) (unused : Unused db added) :
    Numbered (db.installRound round added) :=
  numbered.gains db.gains_installRound (le_refl _) unused.distinct unused.below unused.apart

end Database

/-! ## The invariant -/

namespace Compacting

variable {state : Compacting} {round : Round} {added : List SSTable}

/-- The outputs are those of a successful merge of the selected tables. -/
def MergedFrom (round : Round) (added : List SSTable) : Prop :=
  ∃ options nextFileId,
    (doCompaction options noSnapshot nextFileId round.tables (round.level + 1)).status.isOk = true ∧
      added = (doCompaction options noSnapshot nextFileId round.tables (round.level + 1)).added

/-- Numbers are used once, and what a round has selected is still in its place. -/
structure Sound (state : Compacting) : Prop where
  numbered : state.db.Numbered
  captured : ∀ round, state.stage = .captured round → Attached state.db round
  merged : ∀ round added, state.stage = .merged round added →
    Attached state.db round ∧ state.db.Unused added ∧ MergedFrom round added

theorem sound_start {options : Options} : Sound (start options) :=
  ⟨numbered_fresh options, nofun, nofun⟩

/-- An action that only appends tables to level 0. -/
theorem Sound.append (sound : Sound state) (appended : state.db.Appended later)
    (numbered : later.Numbered) (unused : ∀ added, state.db.Unused added → later.Unused added) :
    Sound { state with db := later } where
  numbered := numbered
  captured round stage := (sound.captured round stage).append appended
  merged round added stage := by
    obtain ⟨attached, free, from_merge⟩ := sound.merged round added stage
    exact ⟨attached.append appended, unused added free, from_merge⟩

/-- An action that leaves the levels alone. -/
theorem Sound.keepLevels (sound : Sound state) (levels : later.levels = state.db.levels)
    (grows : state.db.nextFileId ≤ later.nextFileId) : Sound { state with db := later } :=
  sound.append (appended_of_levels levels) (sound.numbered.congr levels grows)
    fun _ free => free.congr levels grows

/-- Each section keeps the selected tables in place. -/
theorem Sound.step (sound : Sound state) :
    Sound (state.step sorter action) := by
  cases action with
  | call made =>
    rcases state.db.call_cases made with ⟨same, _⟩ | ⟨_, _, _, written⟩
    · refine sound.keepLevels ?_ ?_ <;> rw [same]
    · refine sound.keepLevels ?_ ?_ <;> rw [written] <;> rfl
  | triggerFlush =>
    refine sound.keepLevels ?_ ?_ <;>
    · unfold triggerFlush
      split <;> rfl
  | flushWrite =>
    exact sound.append state.db.appended_flushWrite sound.numbered.flushWrite
      fun _ free => free.flushWrite
  | flushRelease =>
    refine sound.keepLevels ?_ ?_ <;>
    · unfold flushRelease
      split <;> rfl
  | capture _ =>
    simp only [Compacting.step]
    split
    · rename_i captured
      exact ⟨sound.numbered, fun _ stage => by
        obtain rfl := Stage.captured.inj stage
        exact (attached_capture captured).2, nofun⟩
    · exact sound
  | merge =>
    simp only [Compacting.step]
    split
    · rename_i round stage
      have grows : _ ≤ (state.db.mergeRound round).nextFileId := doCompaction_fresh.2.2.1
      have attached : Attached (state.db.withOutputs (state.db.mergeRound round)) round :=
        (sound.captured round stage).append (appended_of_levels rfl)
      refine ⟨sound.numbered.withOutputs grows, ?_, ?_⟩
      · intro _ impossible
        split at impossible <;> cases impossible
      intro _ _ merged
      split at merged
      · rename_i succeeded
        obtain ⟨rfl, rfl⟩ := Stage.merged.inj merged
        exact ⟨attached, sound.numbered.unused_merge, _, _, succeeded, rfl⟩
      · cases merged
    · exact sound
  | install =>
    simp only [Compacting.step]
    split
    · rename_i round added stage
      obtain ⟨_, unused, _⟩ := sound.merged round added stage
      exact ⟨sound.numbered.installRound unused, nofun, nofun⟩
    · exact sound
  | giveUp => exact ⟨sound.numbered, nofun, nofun⟩

/-! ## What the second section takes out -/

/-- A round on level 0 whose range begins with the empty key meets no table of level 1. -/
def Selected (state : Compacting) : Action → Prop
  | .capture .oldest => (level0Range state.db.level0Picked).1 = [] →
      state.db.overlapping 0 (level0Range state.db.level0Picked) = []
  | _ => True

instance (state : Compacting) : DecidablePred state.Selected := by
  intro event
  unfold Selected
  split <;> infer_instance

/-- The round has selected every table of the next level that its range meets. -/
def Complete (db : Database) (round : Round) : Prop :=
  round.kind = .oldest → round.range.1 = [] →
    ∀ table ∈ db.levels 1, overlaps round.range table = false

/-- The invariant with complete selections. -/
structure SelectsAll (state : Compacting) : Prop extends Sound state where
  complete : ∀ round, (state.stage = .captured round ∨ ∃ added, state.stage = .merged round added) →
    Complete state.db round

theorem Complete.append {db later : Database} (complete : Complete db round)
    (appended : db.Appended later) : Complete later round := by
  obtain ⟨_, levels_eq⟩ := appended
  intro oldest unbounded table member
  rw [levels_eq] at member
  exact complete oldest unbounded table member

/-- What an action does to the levels while a round is under way. -/
theorem appended_step
    (busy : ∃ round, (state.step sorter action).stage = .captured round ∨ ∃ added, (state.step
      sorter action).stage = .merged round added) :
    state.db.Appended (state.step sorter action).db := by
  cases action with
  | call made =>
    rcases state.db.call_cases made with ⟨same, _⟩ | ⟨_, _, _, written⟩
    · exact appended_of_levels (congrArg levels same)
    · exact appended_of_levels ((congrArg levels written).trans rfl)
  | triggerFlush =>
    refine appended_of_levels ?_
    simp only [Compacting.step, triggerFlush]
    split <;> rfl
  | flushWrite => exact state.db.appended_flushWrite
  | flushRelease =>
    refine appended_of_levels ?_
    simp only [Compacting.step, flushRelease]
    split <;> rfl
  | capture _ | merge =>
    refine appended_of_levels ?_
    simp only [Compacting.step]
    split <;> rfl
  | install =>
    simp only [Compacting.step] at busy ⊢
    split
    · rename_i added stage
      rw [stage] at busy
      obtain ⟨_, impossible | ⟨_, impossible⟩⟩ := busy <;> cases impossible
    · exact appended_of_levels rfl
  | giveUp => exact appended_of_levels rfl

/-- A round that is under way behind an action was under way before, or was just selected. -/
theorem underWay_of_step
    (busy : (state.step sorter action).stage = .captured round ∨ ∃ added, (state.step sorter
      action).stage = .merged round added) :
    (state.stage = .captured round ∨ ∃ added, state.stage = .merged round added) ∨
      ∃ kind, action = .capture kind ∧ state.db.capture kind = some round := by
  cases action with
  | call _ | triggerFlush | flushWrite | flushRelease => exact .inl busy
  | capture kind =>
    simp only [Compacting.step] at busy
    split at busy
    · rename_i captured
      rcases busy with new | ⟨_, impossible⟩
      · obtain rfl := Stage.captured.inj new
        exact .inr ⟨kind, rfl, captured⟩
      · cases impossible
    · exact .inl busy
  | merge =>
    simp only [Compacting.step] at busy
    split at busy
    · rename_i stage
      split at busy
      · rcases busy with impossible | ⟨_, merged⟩
        · cases impossible
        · obtain ⟨rfl, _⟩ := Stage.merged.inj merged
          exact .inl (.inl stage)
      · rcases busy with impossible | ⟨_, impossible⟩ <;> cases impossible
    · exact .inl busy
  | install =>
    simp only [Compacting.step] at busy
    split at busy
    · rcases busy with impossible | ⟨_, impossible⟩ <;> cases impossible
    · exact .inl busy
  | giveUp => rcases busy with impossible | ⟨_, impossible⟩ <;> cases impossible

/-- Selections stay complete. -/
theorem SelectsAll.step (selectsAll : SelectsAll state)
    (selected : state.Selected action) : SelectsAll (state.step sorter action) := by
  refine ⟨selectsAll.toSound.step, ?_⟩
  intro round busy
  have appended := appended_step ⟨round, busy⟩
  rcases underWay_of_step busy with before | ⟨kind, rfl, captured⟩
  · exact (selectsAll.complete round before).append appended
  refine Complete.append ?_ appended
  intro oldest unbounded table member
  obtain ⟨kind_eq, _⟩ := attached_capture captured
  obtain rfl : kind = .oldest := kind_eq.symm.trans oldest
  have range_eq : round.range = level0Range state.db.level0Picked := by
    unfold capture at captured
    by_cases empty : (state.db.levels 0).isEmpty = true
    · simp [empty] at captured
    · simp only [if_neg empty, some.injEq] at captured
      rw [← captured]
  rw [range_eq] at unbounded ⊢
  by_contra overlap
  have listed : table ∈ state.db.overlapping 0 (level0Range state.db.level0Picked) :=
    mem_filter.mpr ⟨member, by simpa using overlap⟩
  rw [selected unbounded] at listed
  cases listed

theorem SelectsAll.input_of_gone (selectsAll : SelectsAll state)
    (stage : state.stage = .merged round added) (present : table ∈ state.db.levels level)
    (gone : table ∉ (state.db.installRound round added).levels level) :
    ⟨level, table⟩ ∈ round.inputs := by
  have detached : table ∉ round.detached state.db.levels level :=
    fun left => gone (mem_levels_installRound.mpr (.inr left))
  rcases (selectsAll.merged round added stage).1.input_of_detached selectsAll.numbered present
    detached with input | ⟨oldest, unbounded, rfl, overlap⟩
  · exact input
  · have apart := selectsAll.complete round (.inr ⟨added, stage⟩) oldest unbounded table present
    rw [apart] at overlap
    cases overlap

/-- In every interleaving of calls, flushes and rounds, when a round comes to its second
section: every table it takes out of a level is one of its inputs, so is every table it
strikes from the manifest, and every key that a table held is still held by a table. -/
theorem detaches_only_inputs (sorter : StdSort internalKeyLess) (options : Options)
    (actions : List Action) (selected : Meets (step sorter) Selected (start options) actions)
    (round : Round) (added : List SSTable) :
    let state := run (step sorter) (start options) actions
    let later := state.db.installRound round added
    state.stage = .merged round added →
      (∀ level, ∀ table ∈ state.db.levels level, table ∉ later.levels level →
          ⟨level, table⟩ ∈ round.inputs) ∧
        (∀ level, ∀ data ∈ state.db.manifest.files level, data ∉ later.manifest.files level →
          ∃ input ∈ round.inputs, input.level = level ∧ input.table.fileId = data.fileId) ∧
        ∀ table ∈ state.db.tables, ∀ entry ∈ table.entries, ∃ other ∈ later.tables,
          ∃ held ∈ other.entries, held.key = entry.key := by
  dsimp only
  intro stage
  have selectsAll : SelectsAll (run (step sorter) (start options) actions) := by
    refine selected.invariant ⟨sound_start, ?_⟩ ?_
    · rintro round (impossible | ⟨_, impossible⟩) <;> cases impossible
    · intro state action before meets
      exact before.step meets
  generalize run (step sorter) (start options) actions = state at stage selectsAll ⊢
  obtain ⟨attached, _, options, nextFileId, succeeded, outputs⟩ :=
    selectsAll.merged round added stage
  have inner := attached.inner
  refine ⟨fun level table present gone => selectsAll.input_of_gone stage present gone, ?_, ?_⟩
  · intro level data listed gone
    have inputs_inner : ∀ input ∈ round.inputs, input.level < numLevels := by
      intro input member
      rcases mem_append.mp member with picked | overlapping
      · obtain ⟨_, _, rfl⟩ := mem_map.mp picked
        exact Nat.lt_of_succ_lt inner
      · obtain ⟨_, _, rfl⟩ := mem_map.mp overlapping
        exact inner
    have files := files_editManifest state.db.manifest inner added inputs_inner level
    change (state.db.installRound round added).manifest.files level = _ at files
    rw [files, mem_filter, not_and, isKept, decide_eq_true_eq] at gone
    have still : data ∈ update state.db.manifest.files (round.level + 1)
        (state.db.manifest.files (round.level + 1) ++ added.map SSTable.metaData) level := by
      by_cases next : level = round.level + 1
      · subst next
        rw [update_self]
        exact mem_append_left _ listed
      · rwa [update_of_ne next]
    by_contra apart
    refine gone still fun input member at_level same => apart ⟨input, member, at_level, same.symm⟩
  · intro table member entry inside
    obtain ⟨level, bound, present⟩ := mem_tables.mp member
    by_cases stays : table ∈ (state.db.installRound round added).levels level
    · exact ⟨table, mem_tables.mpr ⟨level, bound, stays⟩, entry, inside, rfl⟩
    -- The table was merged, and the merge keeps every key.
    have merged : table ∈ round.tables := by
      have input := selectsAll.input_of_gone stage present stays
      rcases mem_append.mp input with picked | overlapping
      · obtain ⟨own, listed, same⟩ := mem_map.mp picked
        exact mem_append_left _ ((InputFile.mk.inj same).2 ▸ listed)
      · obtain ⟨own, listed, same⟩ := mem_map.mp overlapping
        exact mem_append_right _ ((InputFile.mk.inj same).2 ▸ listed)
    obtain ⟨held, in_outputs, same⟩ := compactTo_retains succeeded entry
      (mem_versionsOf.mpr ⟨table, merged, inside⟩)
    obtain ⟨output, in_added, held_in⟩ := mem_versionsOf.mp in_outputs
    refine ⟨output, mem_tables.mpr ⟨round.level + 1, inner, ?_⟩, held, held_in, same⟩
    exact mem_levels_installRound.mpr (.inl ⟨rfl, outputs ▸ in_added⟩)

/-- Put a key and flush. -/
def flushedPut (key value : Bytes) : List Action :=
  [.call (.put key value), .triggerFlush, .flushWrite, .flushRelease]

/-- The state that actions lead to from an empty directory. -/
abbrev eagerRun (actions : List Action) : Compacting :=
  run (step insertionSorter) (start eager) actions

/-- A flush between the selection of a round and its merge. -/
def flushedBetween : List Action :=
  flushedPut [97] [1] ++ [.capture .oldest] ++ flushedPut [98] [2] ++ [.merge]

theorem detaches_only_inputs_flushedBetween :
    ∃ round added, (eagerRun flushedBetween).stage = .merged round added ∧
      ∀ level, ∀ table ∈ (eagerRun flushedBetween).db.levels level,
        table ∉ ((eagerRun flushedBetween).db.installRound round added).levels level →
          ⟨level, table⟩ ∈ round.inputs := by
  have selected : Meets (step insertionSorter) Selected (start eager) flushedBetween := by
    decide +kernel
  have reached : (match (eagerRun flushedBetween).stage with
      | .merged _ _ => true
      | _ => false) = true := by decide +kernel
  cases stage : (eagerRun flushedBetween).stage with
  | merged round added =>
    exact ⟨round, added, rfl, (detaches_only_inputs insertionSorter eager flushedBetween
      selected round added stage).1⟩
  | idle | captured round =>
    rw [stage] at reached
    cases reached

/-- A key in level 1; then the empty key and a larger one in a table of level 0, which a round
selects and merges. -/
def emptyKeyMerge : List Action :=
  flushedPut [97] [1] ++ [.capture .oldest, .merge, .install] ++
    [.call (.put [] [2]), .call (.put [98] [3]), .triggerFlush, .flushWrite, .flushRelease,
      .capture .oldest, .merge]

/-- The round takes the table of level 1 out, which it did not merge, and its key is gone. -/
theorem unmerged_table_detached :
    (eagerRun emptyKeyMerge).db.get [97] = .ok [1] ∧
      (eagerRun (emptyKeyMerge ++ [.install])).db.get [97] = .error (.notFound "") ∧
      ∀ table ∈ (eagerRun (emptyKeyMerge ++ [.install])).db.tables, ∀ entry ∈ table.entries,
        entry.key ≠ [97] := by
  decide +kernel

end Compacting

end LightKV
