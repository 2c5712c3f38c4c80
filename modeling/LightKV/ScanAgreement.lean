import LightKV.CrashRecovery
import LightKV.Scan

/-!
# Scan agrees with Get

In every run of puts, deletions and range deletions, with background work and restarts
between them, a scan lists the first keys with its prefix that `Get` finds, each with the
value that `Get` returns. Two things besides the disorder of a round can come between the
two readers. A value that is stored inline and begins with a tag byte of its own is
unwrapped twice by `Scan`; and the empty key is left out of the range of a round on level
0, so that the output overlaps a table of level 1 in which `Get` then does not look.
-/

namespace LightKV

open Versions Runs List

/-! ## Stored values -/

theorem VLogManager.storeValue_cases (manager : VLogManager) (files : List VLogFile)
    (options : Options) (value : Bytes) :
    value.length ≤ options.valueThreshold ∧
        (manager.storeValue files options value).1 = 0 :: value ∨
      ∃ payload, (manager.storeValue files options value).1 = 1 :: payload := by
  unfold storeValue
  split
  · exact .inr ⟨_, rfl⟩
  · rename_i short
    exact .inl ⟨Nat.le_of_not_lt short, rfl⟩

/-- The values that a call stores inline are unambiguous. -/
def PlainCall (options : Options) (call : Call) : Prop :=
  ∀ op ∈ call.ops, ∀ entry ∈ op.point 0, entry.type = .value →
    entry.value.length ≤ options.valueThreshold → Unambiguous entry.value
  deriving Decidable

/-- What is prepared from unambiguous values is plain. -/
theorem plainStored_prepareOps (inline : ∀ key value, .value key value ∈ ops → value.length ≤
      options.valueThreshold → Unambiguous value) (manager : VLogManager) (files : List VLogFile)
    (member : .value key stored ∈ (prepareOps options ops manager files).1) :
    PlainStored stored := by
  induction ops generalizing manager files with
  | nil => cases member
  | cons op ops ih =>
    have rest : ∀ key value, .value key value ∈ ops →
        value.length ≤ options.valueThreshold → Unambiguous value :=
      fun key value listed => inline key value (mem_cons_of_mem _ listed)
    cases op with
    | value own value =>
      rcases mem_cons.mp member with here | behind
      · obtain ⟨_, rfl⟩ := BatchOp.value.inj here
        intro _ shape
        rcases manager.storeValue_cases files options value with ⟨short, eq⟩ | ⟨_, eq⟩
        · rw [eq] at shape
          exact (cons.inj shape).2 ▸ inline own value mem_cons_self short
        · rw [eq] at shape
          exact absurd (cons.inj shape).1 (by decide)
      · exact ih rest _ _ behind
    | deletion _ | rangeDeletion _ _ =>
      rcases mem_cons.mp member with impossible | behind
      · cases impossible
      · exact ih rest _ _ behind

namespace Database

variable {db later : Database}

theorem PlainValues.call (plain : PlainValues db) {call : Call}
    (inline : PlainCall db.options call) : PlainValues (db.call call) := by
  rcases db.call_cases call with ⟨same, _⟩ | ⟨_, _, ops_eq, written⟩
  · rwa [same]
  rw [written]
  intro entry member value
  rcases mem_points_of_commit member with new | old
  · obtain ⟨form, in_ops, point⟩ := mem_filterMap.mp new
    rw [ops_eq] at in_ops
    cases form with
    | value _ _ =>
      obtain rfl := Option.some.inj point
      refine plainStored_prepareOps ?_ db.vlog db.disk.vlogs in_ops
      intro _ _ listed
      exact inline _ listed _ rfl rfl
    | deletion _ =>
      obtain rfl := Option.some.inj point
      cases value
    | rangeDeletion _ _ => cases point
  · exact plain entry old value

theorem PlainValues.subset (plain : PlainValues db) (fewer : later.points ⊆ db.points) :
    PlainValues later := fun entry member => plain entry (fewer member)

/-! ## The order in the memtables -/

/-- A call puts versions with the next number in front. -/
theorem Stacked.call (stacked : Stacked db)
    (capped : ∀ run ∈ db.runs, ∀ entry ∈ run, entry.seq ≤ db.lastSeq) {call : Call} :
    Stacked (db.call call) := by
  rcases db.call_cases call with ⟨same, _⟩ | ⟨record, seq_eq, _, written⟩
  · rwa [same]
  rw [written]
  intro key
  rw [versions_commit, append_assoc]
  have own : ∀ entry ∈ (ofKey Entry.key key record.points).reverse, entry.seq = record.seq := by
    intro _ member
    exact WALRecord.seq_of_mem_points (mem_ofKey.mp (mem_reverse.mp member)).1
  refine pairwise_append.mpr ⟨?_, stacked key, ?_⟩
  · refine pairwise_of_forall_mem_list ?_
    intro newer in_newer older in_older
    rw [own newer in_newer, own older in_older]
  intro newer in_newer older in_older
  rw [own newer in_newer, seq_eq]
  rcases mem_append.mp in_older with active | waiting
  · exact capped db.mem.nodes (.inl rfl) older (MemTable.mem_versions.mp active).1
  change older ∈ (db.imm.map fun imm => imm.versions key).getD [] at waiting
  cases rotated : db.imm with
  | none =>
    rw [rotated] at waiting
    cases waiting
  | some imm =>
    rw [rotated] at waiting
    exact capped imm.nodes (.inr (.inl ⟨imm, rotated, rfl⟩)) older
      (MemTable.mem_versions.mp waiting).1

theorem Stacked.maintain (stacked : Stacked db)
    {step : Maintenance} : Stacked (db.maintain sorter step) := by
  have active : ∀ key, (db.mem.versions key).Pairwise fun newer older => older.seq ≤ newer.seq :=
    fun key => (pairwise_append.mp (stacked key)).1
  rcases db.maintain_cases sorter step with rotation | release | only
  · rw [rotation]
    rcases db.triggerFlush_cases with same | rotated
    · rwa [same]
    · intro key
      rw [rotated.mem, immVersions, rotated.imm]
      exact active key
  · rw [release]
    unfold flushRelease
    split
    · intro key
      rw [immVersions_of_none rfl, append_nil]
      exact active key
    · exact stacked
  · intro key
    rw [only.mem, immVersions, only.imm]
    exact stacked key

/-- An opening replays both memtables into one. -/
theorem Stacked.rebuilt (stacked : Stacked db) (rebuilt : Rebuilt db later) : Stacked later := by
  intro key
  rw [rebuilt.versions, immVersions_of_none rebuilt.imm, append_nil]
  exact stacked key

/-! ## Runs -/

/-- The invariants under which a scan lists what `Get` answers, kept by restarts too. -/
structure Listed (db : Database) : Prop where
  consistent : Consistent db
  numbered : Numbered db
  archived : Archived db
  journaled : Journaled db
  unmixed : Unmixed db
  stacked : Stacked db
  plain : PlainValues db

theorem listed_fresh {options : Options} : Listed (fresh options) where
  consistent := consistent_fresh options
  numbered := numbered_fresh options
  archived := archived_fresh options
  journaled := ⟨[], [], journal_fresh⟩
  unmixed := refines_fresh.unmixed
  stacked _ := .nil
  plain := by simp [PlainValues, points_fresh]

theorem Listed.listing (listed : Listed db) :
    Listing db.get keyPrefix limit (db.scan 0 keyPrefix limit) :=
  listed.consistent.listing_scan listed.unmixed listed.stacked listed.plain

theorem Listed.call (listed : Listed db) {call : Call} (accepts : db.Accepts call)
    (single : call.ops.length ≤ 1) (plain : PlainCall db.options call) : Listed (db.call call) where
  consistent := (listed.consistent.call accepts).1
  numbered := listed.numbered.call
  archived := listed.archived.call call
  journaled := listed.journaled.call.1
  unmixed := listed.unmixed.call listed.consistent single
  stacked := listed.stacked.call
    (fun run member entry inside => le_of_lt (listed.consistent.toHoused.older run member
      entry inside))
  plain := listed.plain.call plain

theorem Listed.maintain (listed : Listed db) {step : Maintenance} (orderly : db.Orderly step) :
    Listed (db.maintain sorter step) := by
  have untied := listed.consistent.untiedInputs listed.unmixed step
  obtain ⟨maintains, numbered⟩ := listed.consistent.maintain listed.numbered orderly untied sorter
  exact
    { consistent := maintains.consistent
      numbered := numbered
      archived := listed.archived.maintain listed.numbered orderly sorter
        maintains.consistent.tablesClaimed
      journaled := (listed.journaled.maintain listed.consistent).1
      unmixed := listed.unmixed.maintain maintains
      stacked := listed.stacked.maintain
      plain := listed.plain.subset maintains.points }

theorem Listed.restart (listed : Listed db) (recoverable : db.Recoverable killed) :
    Listed (db.restart killed) := by
  obtain ⟨again, opened, reopened⟩ := listed.consistent.reopens listed.numbered listed.archived
    listed.journaled recoverable.logged recoverable.ordered recoverable.survived
  have restarted : db.restart killed = again := by
    unfold Database.restart
    rw [opened]
  have rebuilt := reopened.toRebuilt
  rw [restarted]
  exact
    { consistent := rebuilt.consistent listed.consistent
      numbered := reopened.numbered
      archived := reopened.archived
      journaled := reopened.journaled
      unmixed := by
        unfold Unmixed
        rw [rebuilt.points_eq]
        exact listed.unmixed
      stacked := listed.stacked.rebuilt rebuilt
      plain := listed.plain.subset (le_of_eq rebuilt.points_eq) }

/-- Single operations on user keys whose inline values are unambiguous, orderly rounds, and
kills that leave what the next opening needs. -/
def Scannable (db : Database) : Event → Prop
  | .call (.batchWrite _) => False
  | .call call => db.Accepts call ∧ PlainCall db.options call
  | .maintain step => db.Orderly step
  | .crash killed => db.Recoverable killed

theorem Listed.step (listed : Listed db)
    (scannable : db.Scannable event) : Listed (db.step sorter event) := by
  cases event with
  | call call =>
    cases call with
    | put _ _ | delete _
    | deleteRange _ _ => exact listed.call scannable.1 (le_refl 1) scannable.2
    | batchWrite _ => exact absurd scannable id
  | maintain _ => exact listed.maintain scannable
  | crash _ => exact listed.restart scannable

theorem listed_run {options : Options}
    (scannable : Meets (step sorter) Scannable (fresh options) events) :
    Listed (run (step sorter) (fresh options) events) := by
  refine scannable.invariant listed_fresh ?_
  intro _ _ before meets
  exact before.step meets

/-- Two keys in a table; then one is deleted and a third one is put. -/
def scannedKeys : List Event :=
  .call (.put [97] [1]) :: flushedPut [98] [2] ++
    [.call (.put [99] [3, 0]), .call (.delete [97])]

/-- A value that begins with a zero byte, and one that has the shape of a pointer. -/
def taggedValues : List Event :=
  [.call (.put [97] [0, 5]), .call (.put [98] (VLogManager.pointer 1 0 0))]

/-- A key in level 1, and a larger one in level 0. -/
def twoLevels : List Event :=
  flushedPut [97] [1] ++ .maintain .level0Compaction :: flushedPut [98] [2]

/-- A round on level 0 that merges the empty key with the larger one. -/
def emptyKeyRound : List Event :=
  twoLevels ++ flushedPut [] [3] ++ [.maintain .level0Compaction]

end Database

end LightKV
