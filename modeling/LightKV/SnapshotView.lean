import LightKV.Operation

/-!
# The view of a snapshot

A reader at a snapshot sees the versions up to a sequence number, while newer versions come
in above them. `Viewed` is what the database keeps for the reader of a key: in each memtable
the version inserted last among those it sees is the newest one it sees, and a level behind
level 0 holds only versions of the key that it sees or only versions that it does not see.

Versions above the snapshot may come in any order. Those below it have to come in the order
of their numbers. A flush keeps every version. A round keeps of each key only the newest
version among its inputs, whoever is reading; so it keeps the view as long as the key does
not have versions on both sides of the snapshot among the inputs.
-/

namespace LightKV

open Versions Levels Function Option MemTable Entry WALRecord
open List hiding range

namespace Database

variable {db : Database} {snapshot : Nat} {key : Bytes}

theorem Housed.getAt_eq_readAt (housed : Housed db) (positive : 0 < snapshot) :
    db.getAt snapshot key = db.readAt snapshot key := by
  rw [db.getAt_eq housed.memTombstones housed.immTombstones, if_pos positive]

section Viewed

variable (viewed : Viewed db snapshot key)
include viewed

theorem Viewed.searchable (housed : Housed db) : Searchable db snapshot key where
  older := fun table member => housed.older table.entries (.inr (.inr ⟨table, member, rfl⟩))
  wellFormed := housed.wellFormed
  level := housed.level
  unsplit := viewed.unsplit

/-- With the view, and tables that are in order, the key can be read at the snapshot. -/
theorem Viewed.readableAt (housed : Housed db) :
    ReadableAt db snapshot key := { viewed, housed with searchable := viewed.searchable housed }

/-! ## Writes -/

theorem Viewed.claim : Viewed db.claim snapshot key := { viewed with }

theorem Viewed.withVLog (housed : Housed db) (extended : LogExtends db.disk.vlogs log.2) :
    Viewed (db.withVLog log) snapshot key :=
  { viewed with
    coherent := by
      intro first in_first second in_second first_key second_key same_rank value
      change log.1.unwrap log.2 first.value = log.1.unwrap log.2 second.value
      rw [housed.unwrap_withVLog extended in_first.1, housed.unwrap_withVLog extended in_second.1]
      exact viewed.coherent first in_first second in_second first_key second_key same_rank value }

end Viewed

/-! ## Background work -/

section Background

variable {later : Database}

/-- The versions of a key that a snapshot sees may only give way to newer ones that it
sees. -/
structure SeenKept (db later : Database) (snapshot : Nat) (key : Bytes) : Prop where
  points : later.points ⊆ db.points
  newer : ∀ entry ∈ db.seen snapshot, entry.key = key → ∃ newer ∈ later.seen snapshot,
    newer.key = key ∧ entry.rank ≤ newer.rank
  lastSeq : later.lastSeq = db.lastSeq
  rangeTombstones : later.rangeTombstones = db.rangeTombstones
  vlog : later.vlog = db.vlog
  vlogs : later.disk.vlogs = db.disk.vlogs

theorem SeenKept.subset (seenKept : SeenKept db later snapshot key) :
    later.seen snapshot ⊆ db.seen snapshot := fun _ member => ⟨seenKept.points member.1, member.2⟩

theorem Exchanges.seenKept (exchanges : Exchanges (InView snapshot key) db later) :
    SeenKept db later snapshot key :=
  { exchanges.front with
    points := exchanges.points_subset
    newer := by
      intro entry ⟨member, seen⟩ same
      obtain ⟨newer, inside, _, at_least, in_view⟩ := exchanges.keeps entry member ⟨same, seen⟩
      exact ⟨newer, ⟨inside, in_view.2⟩, in_view.1, at_least⟩ }

theorem Rotated.seenKept (rotated : Rotated db later) : SeenKept db later snapshot key :=
  { rotated with
    points := rotated.points.subset
    newer := by
      intro entry member same
      exact ⟨entry, rotated.seen ▸ member, same, le_refl _⟩ }

/-- An exchange of tables keeps the view if no level behind level 0 is split by it. -/
theorem Viewed.exchange (viewed : Viewed db snapshot key)
    (exchanges : Exchanges (InView snapshot key) db later)
    (unsplit : ∀ level, 1 ≤ level → level < numLevels →
      Unsplit snapshot key (versionsOf (later.levels level))) : Viewed later snapshot key := by
  have front := exchanges.front
  have subset : later.seen snapshot ⊆ db.seen snapshot :=
    fun _ member => ⟨exchanges.points_subset member.1, member.2⟩
  have newest : ∀ entry, entry ∈ later.seen snapshot →
      Newest Entry.key Entry.rank (db.seen snapshot) key entry →
      Newest Entry.key Entry.rank (later.seen snapshot) key entry :=
    fun _ present before =>
      ⟨present, before.2.1, fun other member => before.2.2 other (subset member)⟩
  refine ⟨⟨viewed.user, ?_, ?_, ?_⟩, unsplit, exchanges.flushed⟩
  · intro entry found
    obtain ⟨inside, same, seen⟩ := mem_of_seen found
    rw [front.mem] at found
    exact newest entry ⟨mem_points_of_mem (same ▸ viewed.user) inside, seen⟩
      (viewed.memFirst entry found)
  · intro imm rotated unseen entry found
    obtain ⟨inside, same, seen⟩ := mem_of_seen found
    rw [front.mem] at unseen
    exact newest entry ⟨mem_points_of_imm rotated (same ▸ viewed.user) inside, seen⟩
      (viewed.immFirst imm (front.imm_eq rotated) unseen entry found)
  · intro first in_first second in_second
    rw [front.vlog, front.vlogs]
    exact viewed.coherent first (subset in_first) second (subset in_second)

/-- The level that a round writes is not split if its inputs are not. A table that stays
shares a key with the tables of its own level at most. -/
theorem unsplit_finishRound (housed : Housed db) (round : Succeeds db level picked rest range)
    (within : ∀ table ∈ picked, Within range table)
    (inputs : Unsplit snapshot key (versionsOf (picked ++ db.overlapping level range)))
    (before : Unsplit snapshot key (versionsOf (db.levels (level + 1)))) :
    Unsplit snapshot key (versionsOf ((db.finishRound level picked rest range).levels
      (level + 1))) := by
  have merged := housed.merged_round round
  have cases_of : ∀ entry ∈ versionsOf ((db.finishRound level picked rest range).levels
      (level + 1)), entry ∈ versionsOf (picked ++ db.overlapping level range) ∨
        entry ∈ versionsOf (db.staying level range) := by
    intro _ member
    rw [levels_finishRound, update_self] at member
    obtain ⟨table, present, inside⟩ := mem_versionsOf.mp member
    rcases mem_insertFiles.mp present with new | stays
    · exact .inl (merged.mem_inputs (mem_versionsOf.mpr ⟨table, new, inside⟩))
    · exact .inr (mem_versionsOf.mpr ⟨table, stays, inside⟩)
  have old : ∀ entry ∈ versionsOf (db.staying level range),
      entry ∈ versionsOf (db.levels (level + 1)) := by
    intro _ member
    obtain ⟨table, stays, inside⟩ := mem_versionsOf.mp member
    exact mem_versionsOf.mpr ⟨table, (mem_filter.mp stays).1, inside⟩
  -- A picked table lies in the range, a table that stays lies outside.
  have shared : ∀ input ∈ versionsOf (picked ++ db.overlapping level range),
      ∀ kept ∈ versionsOf (db.staying level range), input.key = kept.key →
        input ∈ versionsOf (db.levels (level + 1)) := by
    intro input member _ stays same
    obtain ⟨table, in_inputs, inside⟩ := mem_versionsOf.mp member
    rcases mem_append.mp in_inputs with taken | overlapping
    · obtain ⟨other, staying, held⟩ := mem_versionsOf.mp stays
      obtain ⟨present, apart⟩ := mem_filter.mp staying
      obtain ⟨low, high⟩ := within table taken input inside
      have sorted :=
        (housed.wellFormed other (mem_tables.mpr ⟨level + 1, round.inner, present⟩)).sorted
      have first := SSTable.bounds.first_le sorted.keySorted held
      have last := SSTable.bounds.le_last sorted.keySorted held
      rw [same] at low high
      have overlap : overlaps range other = true := by
        simp [overlaps, not_lt_of_ge (le_trans low last), not_lt_of_ge (le_trans first high)]
      rw [overlap] at apart
      exact absurd apart (by decide)
    · exact mem_versionsOf.mpr ⟨table, (mem_filter.mp overlapping).1, inside⟩
  intro first in_first second in_second first_key second_key seen
  have same := first_key.trans second_key.symm
  rcases cases_of first in_first with input | stays
  · rcases cases_of second in_second with also_input | stays
    · exact inputs first input second also_input first_key second_key seen
    · exact before first (shared first input second stays same) second (old second stays)
        first_key second_key seen
  · rcases cases_of second in_second with input | also_stays
    · exact before first (old first stays) second (shared second input first stays same.symm)
        first_key second_key seen
    · exact before first (old first stays) second (old second also_stays) first_key second_key seen

/-- The key does not have versions on both sides of the snapshot among the inputs of the
step. -/
def UnsplitInputs (db : Database) (snapshot : Nat) (key : Bytes) (step : Maintenance) : Prop :=
  Unsplit snapshot key (versionsOf (db.roundInputs step))
  deriving Decidable

variable {sorter : StdSort internalKeyLess}

theorem Viewed.unsplit_turn (viewed : Viewed db snapshot key) (housed : Housed db)
    {step : Maintenance} (turn : Turn sorter db step later)
    (inputs : db.UnsplitInputs snapshot key step) :
    ∀ level, 1 ≤ level → level < numLevels →
      Unsplit snapshot key (versionsOf (later.levels level)) := by
  cases turn with
  | same => exact viewed.unsplit
  | rotated _ =>
    rcases db.triggerFlush_cases with same | rotated
    · rw [same]
      exact viewed.unsplit
    · exact rotated.levels ▸ viewed.unsplit
  | flushed =>
    rcases db.flushWrite_cases sorter with same | ⟨_, _, written⟩
    · rw [same]
      exact viewed.unsplit
    rw [written]
    intro level low
    change _ → Unsplit snapshot key (versionsOf (update db.levels 0 _ level))
    rw [update_of_ne (ne_of_gt low)]
    exact viewed.unsplit level low
  | released =>
    unfold Database.flushRelease
    split
    · exact viewed.unsplit
    · exact viewed.unsplit
  | claimed _ => exact viewed.unsplit
  | failed _ _ _ => exact viewed.unsplit
  | @merged level _ _ _ round inputs_eq _ within =>
    obtain ⟨wellFormed, nonempty⟩ := housed.formed_of_picked inputs_eq
    intro index low high
    by_cases next : index = level + 1
    · subst next
      exact unsplit_finishRound housed round (within wellFormed nonempty) (inputs_eq ▸ inputs)
        (viewed.unsplit _ low high)
    refine (viewed.unsplit index low high).subset ?_
    intro _ member
    obtain ⟨table, in_later, inside⟩ := mem_versionsOf.mp member
    rcases mem_levels_finishRound round.front in_later with ⟨impossible, _⟩ | old
    · exact absurd impossible next
    · exact mem_versionsOf.mpr ⟨table, old, inside⟩

/-- Background work keeps the view as long as the key is not split among the inputs of a
round. -/
theorem Viewed.turn (viewed : Viewed db snapshot key) (housed : Housed db) {step : Maintenance}
    (turn : Turn sorter db step later) (untied : db.UntiedInputs step)
    (inputs : db.UnsplitInputs snapshot key step) :
    Viewed later snapshot key ∧ SeenKept db later snapshot key := by
  have upward : ∀ entry ∈ versionsOf (db.roundInputs step),
      ∀ newer ∈ versionsOf (db.roundInputs step), newer.key = entry.key →
        InView snapshot key entry → InView snapshot key newer :=
    fun entry member newer in_newer same ⟨entry_key, seen⟩ =>
      ⟨same.trans entry_key,
        inputs entry member newer in_newer entry_key (same.trans entry_key) seen⟩
  rcases housed.turn viewed.flushed turn (untied_roundInputs untied) upward with
    exchanges | ⟨_, rotated⟩
  · exact ⟨viewed.exchange exchanges (viewed.unsplit_turn housed turn inputs), exchanges.seenKept⟩
  · exact ⟨viewed.rotate rotated housed, rotated.seenKept⟩

end Background

end Database

end LightKV
