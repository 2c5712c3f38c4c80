import LightKV.Operation

/-!
# The engine refines a map

One client puts, deletes and deletes ranges, and between the calls memtables are rotated
and flushed and levels are compacted. As long as the rounds are orderly, every user key
reads what the abstract map holds that is obtained by replaying the calls.

A round that is not orderly can bring an old version back. Keys have no size limit, and a
version of two mebibytes fills an output by itself. If an older version of its key is
merged too, it opens the next output, and `InsertIntoLevel` puts that output in front of
the first one, where a reader finds it.
-/

namespace LightKV

open Versions Levels Runs List Store MergeState LowerBound
open TableBuilder (build entries_build)

/-- The map that is obtained by replaying the calls of a run. -/
def Store.replay (events : List Event) : Store :=
  run (fun store event => store.applyAll event.ops) Store.empty events

namespace Database

/-- Puts and deletions of user keys with values that stay inline, range deletions, and
background steps. -/
def SingleClient (db : Database) : Event → Prop
  | .call (.put key value) => UserKey key ∧ value.length ≤ db.options.valueThreshold
  | .call (.delete key) => UserKey key
  | .call (.deleteRange _ _) => True
  | .maintain _ => True
  | _ => False

/-- Sequence numbers have 56 bits, and rounds leave the levels in order. -/
def InOrder (db : Database) : Event → Prop
  | .call _ => db.lastSeq < 2 ^ 56
  | .maintain step => db.Orderly step
  | .crash _ => False

/-- The state between events: the invariants, and the answers of the map. -/
structure Refines (db : Database) (store : Store) : Prop where
  consistent : Consistent db
  numbered : Numbered db
  unmixed : Unmixed db
  answers : ∀ key, UserKey key → db.get key = store.answer key

theorem refines_fresh {options : Options} : Refines (fresh options) Store.empty where
  consistent := consistent_fresh options
  numbered := numbered_fresh options
  unmixed := by simp [Unmixed, points_fresh]
  answers _ user := get_fresh options user

variable {db : Database} {store : Store}

theorem accepts_of_singleClient {call : Call} (single : db.SingleClient (.call call))
    (room : db.lastSeq < 2 ^ 56) : db.Accepts call ∧ call.ops.length ≤ 1 := by
  have point_key : ∀ {op : BatchOp} {written : Bytes}, UserKey written →
      (∀ seq entry, op.point seq = some entry → entry.key = written) → UserKeys [op] := by
    intro _ _ user same _ member seq entry point
    rw [mem_singleton.mp member] at point
    exact same seq entry point ▸ user
  cases call with
  | put _ _ =>
    refine ⟨⟨room, point_key single.1 ?_, ordered_singleton _,
      fun large => absurd large (not_lt_of_ge single.2), trivial⟩, le_refl _⟩
    intro _ _ point
    rw [← Option.some.inj point]
  | delete _ =>
    refine ⟨⟨room, point_key single ?_, ordered_singleton _, trivial⟩, le_refl _⟩
    intro _ _ point
    rw [← Option.some.inj point]
  | deleteRange _ _ =>
    refine ⟨⟨room, ?_, ordered_singleton _, trivial⟩, le_refl _⟩
    intro _ member _ _ point
    rw [mem_singleton.mp member] at point
    exact absurd point (by simp [BatchOp.point])
  | batchWrite _ => exact absurd single (by simp [SingleClient])

theorem Refines.step (refines : Refines db store)
    (single : db.SingleClient event) (inOrder : db.InOrder event) :
    Refines (db.step sorter event) (store.applyAll event.ops) := by
  cases event with
  | call call =>
    obtain ⟨accepts, one⟩ := accepts_of_singleClient single inOrder
    obtain ⟨consistent, answers⟩ := refines.consistent.call accepts
    refine ⟨consistent, refines.numbered.call, refines.unmixed.call refines.consistent one, ?_⟩
    intro key user
    rw [answer_applyAll, ← refines.answers key user]
    exact answers key user
  | maintain step =>
    have untied := refines.consistent.untiedInputs refines.unmixed step
    obtain ⟨maintains, numbered⟩ :=
      refines.consistent.maintain refines.numbered inOrder untied sorter
    refine ⟨maintains.consistent, numbered, refines.unmixed.maintain maintains, ?_⟩
    intro key user
    exact (maintains.answers key user).trans (refines.answers key user)
  | crash _ => exact absurd single (by simp [SingleClient])

/-- Insertion sort, as the sorting function of a flush. -/
abbrev insertionSorter : StdSort internalKeyLess :=
  .insertion internalKeyLess_strictWeak

/-- Options under which one table of level 0 is enough for a round. -/
def eager : Options := { l0FileNumTrigger := 1 }

/-- The database that events lead to from an empty directory. -/
abbrev eagerRun (events : List Event) : Database :=
  run (step insertionSorter) (fresh eager) events

/-- A rotation and the flush behind it. -/
def rotateAndFlush : List Event :=
  [.maintain .triggerFlush, .maintain .flushWrite, .maintain .flushRelease]

/-- A put that is flushed. -/
def flushedPut (key value : Bytes) : List Event :=
  .call (.put key value) :: rotateAndFlush

/-- A put that is flushed and merged down. -/
def mergedPut : List Event :=
  flushedPut [107] [1] ++ [.maintain .level0Compaction]

end Database

/-! ## A version that comes back -/

/-- Versions that are in the order of their keys stay where they are. -/
theorem sortEntries_of_increasing
    (increasing : entries.Pairwise fun first second => first.key < second.key)
    (bounded : ∀ entry ∈ entries, entry.seq < 2 ^ 56)
    (nonempty : ∀ entry ∈ entries, entry.key ≠ []) : sortEntries sorter entries = entries := by
  have rearranged := sortEntries_perm sorter bounded
  have sorted := sortEntries_sorted sorter bounded nonempty
  have keySorted : (sortEntries sorter entries).Pairwise fun first second =>
      first.key ≤ second.key := sorted.imp fun before => before.key_le
  refine rearranged.eq_of_pairwise ?_ keySorted (increasing.imp le_of_lt)
  intro _ _ in_first in_second ordered reversed
  by_contra different
  rcases related_or increasing (rearranged.mem_iff.mp in_first) in_second different with
    below | above
  · exact not_lt_of_ge reversed below
  · exact not_lt_of_ge ordered above

/-- Two tables with a long key: each of its versions fills an output. -/
theorem doCompaction_cuts_versions (older_eq : older.entries = [old])
    (newer_eq : newer.entries = [new, other]) (same : old.key = new.key)
    (later : old.seq < new.seq) (below : new.key < other.key)
    (old_large : targetFileSize options 1 ≤ ((TableBuilder.new options).add old).fileSize)
    (new_large : targetFileSize options 1 ≤ ((TableBuilder.new options).add new).fileSize)
    (small : ((TableBuilder.new options).add other).fileSize < targetFileSize options 1)
    {nextFileId : Nat} :
    (doCompaction options noSnapshot nextFileId [older, newer] 1).status = .ok ∧
      (doCompaction options noSnapshot nextFileId [older, newer] 1).added =
        [((TableBuilder.new options).add new).finish nextFileId,
          ((TableBuilder.new options).add old).finish (nextFileId + 1),
          ((TableBuilder.new options).add other).finish (nextFileId + 2)] := by
  have different : new.key ≠ other.key := ne_of_lt below
  have not_above : ¬ other.key < new.key := not_lt_of_gt below
  have not_large := not_le_of_gt small
  have apart : old.seq ≠ new.seq := ne_of_lt later
  simp only [doCompaction, compactTo, start, remaining, pendingCount, older_eq, newer_eq,
    map_cons]
  simp [loop, pick, heapGreater, MergeState.round, write, startNewOutput, same, apart, later,
    old_large, new_large, not_large, different, not_above]

namespace Database

/-- Options under which outputs are closed at two mebibytes. -/
def smallTables : Options := { memtableSize := 64 * 1024, l0FileNumTrigger := 1 }

/-- Put a key and flush; put it again together with another key and flush. -/
def twoFlushes (key : Bytes) : List Event :=
  flushedPut key [1] ++ .call (.put key [2]) :: flushedPut [122] [3]

/-- The flushed tables are merged. -/
abbrev staleRun (key : Bytes) : List Event := twoFlushes key ++ [.maintain .level0Compaction]

/-- The three versions that are put. -/
abbrev firstPut (key : Bytes) : Entry := ⟨key, 0, .value, [0, 1]⟩

@[inherit_doc firstPut]
abbrev secondPut (key : Bytes) : Entry := ⟨key, 1, .value, [0, 2]⟩

@[inherit_doc firstPut]
abbrev thirdPut : Entry := ⟨[122], 2, .value, [0, 3]⟩

/-- A table of one version. -/
abbrev tableOf (entry : Entry) (number : Nat) : SSTable :=
  ((TableBuilder.new smallTables).add entry).finish number

/-- Level 1 behind the round, with the older version in front. -/
abbrev staleLevel (key : Bytes) : List SSTable :=
  [tableOf (firstPut key) 4, tableOf (secondPut key) 3, tableOf thirdPut 5]

section TwoFlushes

variable (sorter : StdSort internalKeyLess) {key : Bytes}

/-- What the two flushes leave behind. -/
theorem levels_twoFlushes (nonempty : key ≠ []) (below : key < [122]) :
    (run (step sorter) (fresh smallTables) (twoFlushes key)).levels 0 =
      [build smallTables 1 [firstPut key],
        build smallTables 2 [secondPut key, thirdPut]] := by
  have first : flushEntries sorter (MemTable.new.insert 0 key [0, 1]) = [firstPut key] := by
    change sortEntries sorter [firstPut key] = _
    apply sortEntries_of_increasing
    · exact pairwise_singleton _ _
    · simp
    · simp [nonempty]
  have nodes : ((MemTable.new.insert 1 key [0, 2]).insert 2 [122] [0, 3]).nodes ++ [] =
      [secondPut key, thirdPut] := by
    simp [MemTable.insert, MemTable.insertNode, insertFront, MemTable.new, Versions.below, fromKey,
      below]
  have second : flushEntries sorter ((MemTable.new.insert 1 key [0, 2]).insert 2 [122] [0, 3]) =
      [secondPut key, thirdPut] := by
    change sortEntries sorter (_ ++ []) = _
    rw [nodes]
    apply sortEntries_of_increasing
    · simp [below]
    · simp
    · simp [nonempty]
  have shape : (run (step sorter) (fresh smallTables) (twoFlushes key)).levels 0 =
      [build smallTables 1 (flushEntries sorter (MemTable.new.insert 0 key [0, 1])),
        build smallTables 2 (flushEntries sorter
          ((MemTable.new.insert 1 key [0, 2]).insert 2 [122] [0, 3]))] := rfl
  rw [shape, first, second]

/-- The round on level 0 succeeds, and behind it the older version of a long key stands in
front of the newer one. -/
theorem levels_staleRun (long : 2 ^ 21 ≤ key.length) (below : key < [122]) :
    ∃ picked rest range, let db := run (step sorter) (fresh smallTables) (twoFlushes key)
      run (step sorter) (fresh smallTables) (staleRun key) = db.finishRound 0 picked rest range ∧
      (db.finishRound 0 picked rest range).levels =
        Function.update (fun _ => []) 1 (staleLevel key) := by
  have nonempty : key ≠ [] := by
    rintro rfl
    simp at long
  have filled := levels_twoFlushes sorter nonempty below
  rw [run_append]
  generalize flushed : run (step sorter) (fresh smallTables) (twoFlushes key) = db at filled ⊢
  have options_eq : db.options = smallTables := by rw [← flushed]; rfl
  have next_eq : db.nextFileId = 3 := by rw [← flushed]; rfl
  have deeper : ∀ level, db.levels (level + 1) = [] := by
    intro _
    rw [← flushed]
    rfl
  have picked : db.level0Picked = db.levels 0 := by
    rw [level0Picked, options_eq, filled]
    rfl
  have result := db.doLevel0Compaction_eq (fun _ => by rw [overlapping, deeper]; rfl)
    (by rw [filled]; simp)
  have merge : db.roundResult 0 db.level0Picked (level0Range db.level0Picked) =
      doCompaction smallTables noSnapshot 3 (db.levels 0) 1 := by
    rw [roundResult, overlapping, deeper, picked, options_eq, next_eq]
    simp
  have large : ∀ seq value, targetFileSize smallTables 1 ≤
      ((TableBuilder.new smallTables).add ⟨key, seq, .value, value⟩).fileSize := by
    intro seq value
    have block : smallTables.blockSize ≤ key.length := le_trans (by decide) long
    exact le_trans long (TableBuilder.le_fileSize_add smallTables ⟨key, seq, .value, value⟩ block)
  obtain ⟨succeeded, added⟩ := doCompaction_cuts_versions
    (entries_build smallTables 1 [firstPut key])
    (entries_build smallTables 2 [secondPut key, thirdPut]) rfl one_pos below
    (large 0 [0, 1]) (large 1 [0, 2]) (by decide)
  rw [← filled, ← merge] at succeeded added
  have finished : db.doLevel0Compaction.2 = db.finishRound 0 db.level0Picked
      ((db.levels 0).drop db.level0Picked.length) (level0Range db.level0Picked) := by
    rw [result, succeeded]
    rfl
  refine ⟨_, _, _, finished, ?_⟩
  have stays : db.staying 0 (level0Range db.level0Picked) = [] := by rw [staying, deeper]; rfl
  have inserted : insertFiles SSTable.smallestKey
      [tableOf (secondPut key) 3, tableOf (firstPut key) 4, tableOf thirdPut 5] [] =
      staleLevel key := by
    simp [insertFiles, insertFile, lowerBound, search, SSTable.smallestKey, below]
  rw [levels_finishRound, added, stays, inserted]
  funext level
  rcases level with _ | _ | _
  · simp [picked]
  · rfl
  · simp [Function.update, deeper]

/-- The reader finds the older version. -/
theorem get_staleRun (long : 2 ^ 21 ≤ key.length) (below : key < [122]) :
    (run (step sorter) (fresh smallTables) (staleRun key)).get key = .ok [1] := by
  obtain ⟨picked, rest, range, later, levels⟩ := levels_staleRun sorter long below
  have older_found : (tableOf (firstPut key) 4).get key 3 = some (firstPut key) := by
    have wellFormed := @SSTable.wellFormed_build smallTables 4 [firstPut key]
      (pairwise_singleton _ _)
    change (build smallTables 4 [firstPut key]).get key 3 = _
    rw [wellFormed.get_eq_lookup, wellFormed.sorted.keySorted.lookup_eq_find]
    simp [ofKey_cons]
  have matched : (tableOf (firstPut key) 4).mayMatch key = true := by
    rw [SSTable.mayMatch, TableBuilder.bloom_finish, TableBuilder.bloom_add]
    exact BloomFilter.mayMatch_add_self
  have found : searchLevels (Function.update (fun _ => []) 1 (staleLevel key)) 3 key 3 =
      some (firstPut key) := by
    -- Only level 1 has tables, and its first one reaches the key.
    change searchLevel key 3 [_, _, _] none = _
    have located : locate SSTable.largestKey key (staleLevel key) =
        some (tableOf (firstPut key) 4) := by simp [locate, lowerBound, search, SSTable.largestKey]
    rw [searchLevel, located]
    simp [SSTable.smallestKey, consider, matched, older_found, better]
  rw [later]
  have shape : let db := run (step sorter) (fresh smallTables) (twoFlushes key)
      (db.finishRound 0 picked rest range).get key =
        (db.finishRound 0 picked rest range).readTables key 3 := rfl
  rw [shape, readTables, levels]
  split <;> rename_i searched
  · cases searched.symm.trans found
  · cases searched.symm.trans found
    rfl

theorem singleClient_staleRun (user : UserKey key) :
    Meets (step sorter) SingleClient (fresh smallTables) (staleRun key) := by
  have inline : 1 ≤ smallTables.valueThreshold := by decide
  exact ⟨⟨user, inline⟩, trivial, trivial, trivial, ⟨user, inline⟩, ⟨by decide, inline⟩,
    trivial, trivial, trivial, trivial, trivial⟩

/-- The map holds the value that was put last. -/
theorem replay_staleRun (below : key < [122]) :
    (Store.replay (staleRun key)).answer key = .ok [2] := by
  have different : [122] ≠ key := (ne_of_lt below).symm
  simp [replay, twoFlushes, flushedPut, rotateAndFlush, run, Event.ops, Call.ops, applyAll, apply,
    answer, BatchOp.touches, BatchOp.outcome, different]

end TwoFlushes

/-- A key of two mebibytes. -/
def longKey : Bytes := 107 :: List.replicate (2 ^ 21) 107

theorem userKey_longKey : UserKey longKey := ⟨cons_ne_nil _ _, rfl⟩

theorem longKey_lt : longKey < [122] := cons_lt_cons_iff.mpr (.inl (by decide))

theorem length_longKey : 2 ^ 21 ≤ longKey.length := by
  rw [longKey, length_cons, length_replicate]
  exact Nat.le_succ _

end Database

end LightKV
