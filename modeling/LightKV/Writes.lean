import LightKV.Consistency
import LightKV.Store

/-!
# Writes

A write claims a sequence number, may append to the value log, and commits a record.
Claiming and logging change no answer. Committing puts the points of the record in front
of what the memtable holds, and its range tombstones beside the registered ones: the key
of a point is answered by the last point of the record, a key in the range of a tombstone
is gone, and every other key keeps its answer.
-/

namespace LightKV

open Versions Levels List Option VLogManager MemTable
open BatchOp (lastTouch lastTouch_cons getLast_points any_spans_iff mem_of_lastTouch outcome)
open Entry (rank_le_of_seq_lt rank_eq_iff)
open WALRecord (seq_of_mem_points seq_of_mem_tombstones)

namespace Database

variable {db : Database}

/-! ## Claiming and logging -/

theorem Housed.claim (housed : Housed db) (room : db.lastSeq < 2 ^ 56) : Housed db.claim :=
  { housed with
    older := fun run member entry inside => Nat.lt_succ_of_lt (housed.older run member entry inside)
    bounded := room
    pastTombstones := fun tombstone member =>
      Nat.lt_succ_of_lt (housed.pastTombstones tombstone member) }

/-- Claiming a sequence number changes no answer. -/
theorem Consistent.claim (consistent : Consistent db) (room : db.lastSeq < 2 ^ 56) :
    Consistent db.claim ∧ ∀ key, UserKey key → db.claim.get key = db.get key := by
  have housed := consistent.toHoused.claim room
  have later : Consistent db.claim := { housed, consistent with }
  refine ⟨later, ?_⟩
  intro _ user
  refine consistent.toReadable.get_eq_of_covers later.toReadable Covers.refl ?_ user
  intro _ _
  exact resolve_congr (fun _ => Iff.rfl) consistent.pastTombstones housed.pastTombstones rfl

section Logging

variable {log : VLogManager × List VLogFile}

theorem Housed.withVLog (housed : Housed db) (sound : log.1.Sound log.2)
    (extended : LogExtends db.disk.vlogs log.2) : Housed (db.withVLog log) :=
  { housed with
    resident := fun entry member => (housed.resident entry member).mono extended
    sound := sound }

/-- What is in the value log reads the same behind an extension. -/
theorem Housed.unwrap_withVLog (housed : Housed db) (extended : LogExtends db.disk.vlogs log.2)
    (member : entry ∈ db.points) :
    log.1.unwrap log.2 entry.value = db.vlog.unwrap db.disk.vlogs entry.value :=
  unwrap_extends _ _ (housed.resident entry member) extended

/-- Extending the value log changes no answer. -/
theorem Consistent.withVLog (consistent : Consistent db) (sound : log.1.Sound log.2)
    (extended : LogExtends db.disk.vlogs log.2) :
    Consistent (db.withVLog log) ∧
      ∀ key, UserKey key → (db.withVLog log).get key = db.get key := by
  have housed := consistent.toHoused.withVLog sound extended
  have later : Consistent (db.withVLog log) :=
    { housed, consistent with
      coherent := by
        intro first in_first second in_second same_key same_rank value
        change log.1.unwrap log.2 first.value = log.1.unwrap log.2 second.value
        rw [consistent.unwrap_withVLog extended in_first,
          consistent.unwrap_withVLog extended in_second]
        exact consistent.coherent first in_first second in_second same_key same_rank value }
  refine ⟨later, ?_⟩
  intro _ user
  refine consistent.toReadable.get_eq_of_covers later.toReadable Covers.refl ?_ user
  intro _ member
  exact resolve_congr (fun _ => Iff.rfl) consistent.pastTombstones consistent.pastTombstones
    (consistent.unwrap_withVLog extended member)

end Logging

/-! ## Committing -/

/-- What a record needs to be inserted: a claimed sequence number that none of its keys has,
user keys, and values that are in the value log. -/
structure Insertable (db : Database) (record : WALRecord) : Prop where
  claimed : record.seq < db.lastSeq
  keys : ∀ entry ∈ record.points, UserKey entry.key
  apart : ∀ entry ∈ record.points, ∀ other ∈ db.points, other.key = entry.key →
    other.seq ≠ record.seq
  resident : ∀ entry ∈ record.points, Resident db.disk.vlogs entry.value

/-- Points that agree among themselves: the last one of a key is its highest, and those of one
rank read alike. -/
structure Agreeing (db : Database) (record : WALRecord) : Prop where
  lastHighest : ∀ key front last, ofKey Entry.key key record.points = front ++ [last] →
    ∀ entry ∈ front, entry.rank ≤ last.rank
  agree : ∀ first ∈ record.points, ∀ second ∈ record.points, first.key = second.key →
    first.rank = second.rank → first.type = .value →
      db.vlog.unwrap db.disk.vlogs first.value = db.vlog.unwrap db.disk.vlogs second.value

/-- What a record needs to be committed: a claimed sequence number above those its keys
have, and points that agree. -/
structure Committable (db : Database) (record : WALRecord) : Prop
    extends Insertable db record, Agreeing db record where
  above : ∀ entry ∈ record.points, ∀ other ∈ db.points, other.key = entry.key →
    other.seq < record.seq

theorem mem_nodes_commit :
    entry ∈ (db.commit record).mem.nodes ↔ entry ∈ record.points ∨ entry ∈ db.mem.nodes := by
  change entry ∈ (db.mem.replayRecord record).nodes ↔ _
  rw [replayRecord_eq, mem_nodes_applyAll]
  rfl

theorem versions_commit (record : WALRecord) (key : Bytes) :
    (db.commit record).mem.versions key =
      (ofKey Entry.key key record.points).reverse ++ db.mem.versions key := by
  change (db.mem.replayRecord record).versions key = _
  rw [replayRecord_eq, versions_applyAll]
  rfl

/-- A version behind a commit is one of the record or an old one. -/
theorem mem_points_of_commit (member : entry ∈ (db.commit record).points) :
    entry ∈ record.points ∨ entry ∈ db.points := by
  obtain ⟨user, run, rfl | behind, inside⟩ := member
  · rcases mem_nodes_commit.mp inside with new | old
    · exact .inl new
    · exact .inr (mem_points_of_mem user old)
  · exact .inr ⟨user, run, .inr behind, inside⟩

/-- The versions behind a commit are those of the record and the old ones. -/
theorem mem_points_commit (keys : ∀ entry ∈ record.points, UserKey entry.key) :
    entry ∈ (db.commit record).points ↔ entry ∈ record.points ∨ entry ∈ db.points := by
  refine ⟨mem_points_of_commit, ?_⟩
  rintro (new | ⟨user, run, rfl | behind, inside⟩)
  · exact mem_points_of_mem (keys entry new) (mem_nodes_commit.mpr (.inl new))
  · exact mem_points_of_mem user (mem_nodes_commit.mpr (.inr inside))
  · exact ⟨user, run, .inr behind, inside⟩

variable {record : WALRecord}

/-- What a record needs to be seen at a key: a number above those that the key has and that
are seen, and points that agree. -/
structure Settles (db : Database) (snapshot : Nat) (key : Bytes) (record : WALRecord) : Prop
    extends Agreeing db record where
  above : ∀ entry ∈ record.points, entry.key = key → ∀ other ∈ db.seen snapshot,
    other.key = key → other.seq < record.seq

/-- A record that is seen puts its last point of the key in front. -/
theorem seen_commit (seen : record.seq ≤ snapshot) :
    (db.commit record).mem.seen key snapshot =
      (ofKey Entry.key key record.points).getLast?.or (db.mem.seen key snapshot) := by
  unfold MemTable.seen
  rw [versions_commit]
  have visible : ∀ entry ∈ (ofKey Entry.key key record.points).reverse, entry.seq ≤ snapshot := by
    intro _ member
    have inside := (mem_ofKey.mp (mem_reverse.mp member)).1
    rwa [seq_of_mem_points inside]
  rw [← head?_reverse]
  cases stack : (ofKey Entry.key key record.points).reverse with
  | nil => rfl
  | cons head _ =>
    have front := visible head (by rw [stack]; exact mem_cons_self)
    simp [front]

/-- A record above the snapshot is passed over. -/
theorem unseen_commit (unseen : snapshot < record.seq) :
    (db.commit record).mem.seen key snapshot = db.mem.seen key snapshot := by
  unfold MemTable.seen
  rw [versions_commit, find?_append]
  have hidden : (ofKey Entry.key key record.points).reverse.find?
      (fun entry => decide (entry.seq ≤ snapshot)) = none := by
    rw [find?_eq_none]
    intro _ member
    have inside := (mem_ofKey.mp (mem_reverse.mp member)).1
    rw [seq_of_mem_points inside, decide_eq_true_eq]
    exact Nat.not_le_of_lt unseen
  rw [hidden, none_or]

section

variable (keys : ∀ entry ∈ record.points, UserKey entry.key)
include keys

theorem mem_seen_commit :
    entry ∈ (db.commit record).seen snapshot ↔
      entry ∈ record.points ∧ record.seq ≤ snapshot ∨ entry ∈ db.seen snapshot := by
  constructor
  · rintro ⟨member, seen⟩
    rcases mem_points_of_commit member with new | old
    · exact .inl ⟨new, seq_of_mem_points new ▸ seen⟩
    · exact .inr ⟨old, seen⟩
  · rintro (⟨new, seen⟩ | ⟨old, seen⟩)
    · exact ⟨(mem_points_commit keys).mpr (.inl new), (seq_of_mem_points new).symm ▸ seen⟩
    · exact ⟨(mem_points_commit keys).mpr (.inr old), seen⟩

/-- An old version stays the newest that is seen of a key that the record does not write. -/
theorem newest_seen_of_old
    (unwritten : record.seq ≤ snapshot → ofKey Entry.key key record.points = [])
    (newest : Newest Entry.key Entry.rank (db.seen snapshot) key entry) :
    Newest Entry.key Entry.rank ((db.commit record).seen snapshot) key entry := by
  refine ⟨(mem_seen_commit keys).mpr (.inr newest.1), newest.2.1, ?_⟩
  intro other member same
  rcases (mem_seen_commit keys).mp member with ⟨new, seen⟩ | old
  · have written := mem_ofKey.mpr ⟨new, same⟩
    rw [unwritten seen] at written
    exact absurd written (by simp)
  · exact newest.2.2 other old same

/-- The last point of a key in a record that is seen becomes its newest version. -/
theorem newest_seen_of_last (seen : record.seq ≤ snapshot)
    (settles : Settles db snapshot key record)
    (written : (ofKey Entry.key key record.points).getLast? = some last) :
    Newest Entry.key Entry.rank ((db.commit record).seen snapshot) key last := by
  obtain ⟨front, shape⟩ := getLast?_eq_some_iff.mp written
  obtain ⟨inside, last_key⟩ := mem_ofKey.mp (mem_of_getLast? written)
  refine ⟨(mem_seen_commit keys).mpr (.inl ⟨inside, seen⟩), last_key, ?_⟩
  intro other member same
  rcases (mem_seen_commit keys).mp member with ⟨new, _⟩ | old
  · have listed : other ∈ front ++ [last] := shape ▸ mem_ofKey.mpr ⟨new, same⟩
    rcases mem_append.mp listed with earlier | final
    · exact settles.lastHighest key front last shape other earlier
    · rw [mem_singleton.mp final]
  · apply rank_le_of_seq_lt
    rw [seq_of_mem_points inside]
    exact settles.above last inside last_key other old same

end

/-- A record keeps the view if it is above the snapshot or comes in its turn. -/
theorem Viewed.commit (viewed : Viewed db snapshot key)
    (keys : ∀ entry ∈ record.points, UserKey entry.key)
    (inTurn : record.seq ≤ snapshot → Settles db snapshot key record) :
    Viewed (db.commit record) snapshot key where
  user := viewed.user
  unsplit := viewed.unsplit
  memFirst := by
    intro entry found
    rcases lt_or_ge snapshot record.seq with unseen | seen
    · rw [unseen_commit unseen] at found
      exact newest_seen_of_old keys (fun seen => absurd seen (Nat.not_le_of_lt unseen))
        (viewed.memFirst entry found)
    rw [seen_commit seen] at found
    cases last_eq : (ofKey Entry.key key record.points).getLast? with
    | none =>
      rw [last_eq] at found
      exact newest_seen_of_old keys (fun _ => getLast?_eq_none_iff.mp last_eq)
        (viewed.memFirst entry found)
    | some _ =>
      rw [last_eq, some_or, some.injEq] at found
      exact found ▸ newest_seen_of_last keys seen (inTurn seen) last_eq
  immFirst := by
    intro imm rotated unseen_mem entry found
    rcases lt_or_ge snapshot record.seq with unseen | seen
    · rw [unseen_commit unseen] at unseen_mem
      exact newest_seen_of_old keys (fun seen => absurd seen (Nat.not_le_of_lt unseen))
        (viewed.immFirst imm rotated unseen_mem entry found)
    · rw [seen_commit seen, or_eq_none_iff] at unseen_mem
      exact newest_seen_of_old keys (fun _ => getLast?_eq_none_iff.mp unseen_mem.1)
        (viewed.immFirst imm rotated unseen_mem.2 entry found)
  coherent := by
    intro first in_first second in_second first_key second_key same_rank value
    have same_seq := (rank_eq_iff.mp same_rank).1
    rcases (mem_seen_commit keys).mp in_first with ⟨new, seen⟩ | old
    · rcases (mem_seen_commit keys).mp in_second with ⟨also_new, _⟩ | old
      · exact (inTurn seen).agree first new second also_new (first_key.trans second_key.symm)
          same_rank value
      · have lower := (inTurn seen).above first new first_key second old second_key
        rw [← seq_of_mem_points new] at lower
        omega
    · rcases (mem_seen_commit keys).mp in_second with ⟨new, seen⟩ | also_old
      · have lower := (inTurn seen).above second new second_key first old first_key
        rw [← seq_of_mem_points new] at lower
        omega
      · exact viewed.coherent first old second also_old first_key second_key same_rank value
  flushed := viewed.flushed

/-- The runs still agree: at the sequence number of the record only its own points meet,
and they are all in the active memtable. -/
theorem tieClosed_commit (housed : Housed db) (insertable : Insertable db record) :
    TieClosed (db.commit record).runs := by
  -- Every version is a point of the record in the active memtable, or an old one.
  have cases_of : ∀ run ∈ (db.commit record).runs, ∀ entry ∈ run,
      run = (db.commit record).mem.nodes ∧ entry ∈ record.points ∨
        ∃ old ∈ db.runs, entry ∈ old ∧ ∀ version ∈ old, version ∈ run := by
    rintro run (rfl | behind) _ inside
    · rcases mem_nodes_commit.mp inside with new | old
      · exact .inl ⟨rfl, new⟩
      · exact .inr ⟨db.mem.nodes, .inl rfl, old, fun _ held => mem_nodes_commit.mpr (.inr held)⟩
    · exact .inr ⟨run, .inr behind, inside, fun _ held => held⟩
  have never_level : ∀ new ∈ record.points, ∀ old ∈ db.runs, ∀ version ∈ old,
      version.key = new.key → version.seq ≠ new.seq := by
    intro new written old member version inside same_key
    rw [seq_of_mem_points written]
    exact insertable.apart new written version
      ⟨same_key ▸ insertable.keys new written, old, member, inside⟩ same_key
  intro run member other in_other entry inside above in_above same_key same_seq below
  rcases cases_of run member entry inside with ⟨rfl, new⟩ | ⟨old, in_old, held, carried⟩
  · rcases cases_of other in_other above in_above with ⟨_, also_new⟩ | ⟨old, in_old, held, _⟩
    · exact ⟨above, mem_nodes_commit.mpr (.inl also_new), same_key, rfl⟩
    · exact absurd same_seq (never_level entry new old in_old above held same_key)
  rcases cases_of other in_other above in_above with ⟨_, new⟩ | ⟨from_run, in_from, from_held, _⟩
  · exact absurd same_seq.symm (never_level above new old in_old entry held same_key.symm)
  · obtain ⟨version, present, facts⟩ := housed.closed old in_old from_run in_from entry held
      above from_held same_key same_seq below
    exact ⟨version, carried version present, facts⟩

theorem Housed.commit (housed : Housed db) (insertable : Insertable db record) :
    Housed (db.commit record) where
  older := by
    rintro run (rfl | behind) entry inside
    · rcases mem_nodes_commit.mp inside with new | old
      · exact seq_of_mem_points new ▸ insertable.claimed
      · exact housed.older _ (.inl rfl) entry old
    · exact housed.older run (.inr behind) entry inside
  wellFormed := housed.wellFormed
  level := housed.level
  closed := tieClosed_commit housed insertable
  memTombstones := by
    change (db.mem.replayRecord record).rangeTombstones ⊆ _
    rw [replayRecord_eq, rangeTombstones_applyAll]
    exact append_subset.mpr
      ⟨fun _ member => mem_append_left _ (housed.memTombstones member),
        fun _ member => mem_append_right _ member⟩
  immTombstones := fun imm rotated _ member =>
    mem_append_left _ (housed.immTombstones imm rotated member)
  bounded := housed.bounded
  memKeys := by
    intro entry inside
    rcases mem_nodes_commit.mp inside with new | old
    · exact insertable.keys entry new
    · exact housed.memKeys entry old
  immKeys := housed.immKeys
  stored := by
    intro table present entry inside
    rcases housed.stored table present entry inside with user | ⟨tombstone, known, same⟩
    · exact .inl user
    · exact .inr ⟨tombstone, mem_append_left _ known, same⟩
  pastTombstones := by
    intro tombstone member
    rcases mem_append.mp member with old | new
    · exact housed.pastTombstones tombstone old
    · rw [seq_of_mem_tombstones new]
      exact insertable.claimed
  idle := housed.idle
  resident := by
    intro entry member
    rcases mem_points_of_commit member with new | old
    · exact insertable.resident entry new
    · exact housed.resident entry old
  sound := housed.sound

theorem Committable.settles (committable : Committable db record) (key : Bytes) :
    Settles db snapshot key record :=
  { committable with
    above := fun entry new same other old old_same =>
      committable.above entry new other old.1 (old_same.trans same.symm) }

/-- Committing a record keeps the invariant. -/
theorem Consistent.commit (consistent : Consistent db) (committable : Committable db record) :
    Consistent (db.commit record) := by
  refine (consistent.toHoused.commit committable.toInsertable).consistent fun key user => ?_
  exact (consistent.viewed (le_refl _) user).commit committable.keys fun _ =>
    committable.settles key

/-- What a record says of a key: its last point, nothing in the range of a tombstone, else the
answer from before. -/
def recordAnswer (db : Database) (record : WALRecord) (key : Bytes)
    (before : Except Status Bytes) : Except Status Bytes :=
  match (ofKey Entry.key key record.points).getLast? with
  | some last =>
      if last.type = .deletion then .error (.notFound "")
      else db.vlog.unwrap db.disk.vlogs last.value
  | none =>
      if record.tombstones.any fun tombstone => tombstone.spans key then .error (.notFound "")
      else before

/-- The answer behind a commit whose sequence number is above those of the versions in the
ranges it deletes and not below a tombstone. -/
theorem Consistent.get_commit (consistent : Consistent db) (committable : Committable db record)
    (latest : ∀ entry ∈ db.points, (∃ tombstone ∈ record.tombstones, tombstone.spans entry.key =
      true) → entry.seq < record.seq)
    (latest_tombstone : ∀ tombstone ∈ db.rangeTombstones, tombstone.seq ≤ record.seq)
    (user : UserKey key) :
    (db.commit record).get key = db.recordAnswer record key (db.get key) := by
  unfold recordAnswer
  have later := consistent.commit committable
  have all := seen_eq_points consistent.older (le_refl _)
  have all_later := seen_eq_points later.older (le_refl _)
  cases written : (ofKey Entry.key key record.points).getLast? with
  | some last =>
    obtain ⟨_, shape⟩ := getLast?_eq_some_iff.mp written
    rw [later.toReadable.get_eq_resolve (all_later ▸ newest_seen_of_last committable.keys
      (le_of_lt committable.claimed) (committable.settles key) written)]
    have listed : last ∈ ofKey Entry.key key record.points := by rw [shape]; simp
    have inside := (mem_ofKey.mp listed).1
    -- No tombstone is above the sequence number of the record.
    have uncovered : covered (db.rangeTombstones ++ record.tombstones) last.key last.seq
        db.lastSeq = false := by
      apply Bool.eq_false_iff.mpr
      intro hidden
      obtain ⟨tombstone, member, hides⟩ := (covered_iff ..).mp hidden
      have above := ((tombstone.hides_iff ..).mp hides).1
      rw [seq_of_mem_points inside] at above
      rcases mem_append.mp member with old | new
      · exact absurd (latest_tombstone tombstone old) (by omega)
      · rw [seq_of_mem_tombstones new] at above
        omega
    change (if last.type = .deletion then _
      else if covered (db.rangeTombstones ++ record.tombstones) last.key last.seq db.lastSeq = true
        then _ else _) = _
    rw [uncovered]
    rfl
  | none =>
    have unwritten := getLast?_eq_none_iff.mp written
    rcases consistent.toReadable.get_newest user with ⟨entry, newest, answer⟩ | ⟨absent, answer⟩
    · rw [later.toReadable.get_eq_resolve (all_later ▸ newest_seen_of_old committable.keys
        (fun _ => unwritten) (all.symm ▸ newest)), answer]
      have split : covered (db.rangeTombstones ++ record.tombstones) entry.key entry.seq
          db.lastSeq = (covered db.rangeTombstones entry.key entry.seq db.lastSeq ||
            record.tombstones.any fun tombstone => tombstone.spans key) := by
        unfold covered
        rw [any_append]
        congr 1
        apply Bool.eq_iff_iff.mpr
        simp only [List.any_eq_true]
        refine exists_congr fun tombstone => and_congr_right fun member => ?_
        have seq_eq := seq_of_mem_tombstones member
        have claimed := committable.claimed
        rw [RangeTombstone.hides_iff, newest.2.1]
        constructor
        · exact fun hides => hides.2.2
        · intro spans
          have older := latest entry newest.1 ⟨tombstone, member, newest.2.1 ▸ spans⟩
          exact ⟨by omega, by omega, spans⟩
      change (if entry.type = .deletion then _ else if covered
        (db.rangeTombstones ++ record.tombstones) entry.key entry.seq db.lastSeq = true then _
        else _) = _
      unfold resolve resolveAt answerValue
      rw [split]
      by_cases deleted : entry.type = .deletion
      · simp [deleted]
      · by_cases spanned : (record.tombstones.any fun tombstone => tombstone.spans key) = true
        · simp [deleted, spanned]
        · simp only [spanned, Bool.or_false]
          rfl
    · rw [later.toReadable.get_eq_notFound user, answer]
      · simp
      intro entry member same
      rcases (mem_points_commit committable.keys).mp member with new | old
      · have listed := mem_ofKey.mpr ⟨new, same⟩
        rw [unwritten] at listed
        exact absurd listed (by simp)
      · exact absent entry old same

end Database

/-! ## Operations of a client -/

/-- The point operations of a list have user keys. -/
def UserKeys (ops : List BatchOp) : Prop :=
  ∀ op ∈ ops, ∀ seq entry, op.point seq = some entry → UserKey entry.key

/-- A key that the operations put is last touched by a put, and every put of it has the
same value. -/
def Ordered (ops : List BatchOp) : Prop :=
  ∀ key value, BatchOp.value key value ∈ ops →
    lastTouch ops key = some (.value key value)

/-- The values of the operations fit the value log as it grows. -/
def LogFits (options : Options) : List BatchOp → VLogManager → List VLogFile → Prop
  | [], _, _ => True
  | .value _ value :: ops, manager, files =>
      manager.Storable files options value ∧
        LogFits options ops (manager.storeValue files options value).2.1
          (manager.storeValue files options value).2.2
  | _ :: ops, manager, files => LogFits options ops manager files

/-- The key of a point operation does not depend on its sequence number. -/
theorem userKeys_iff : UserKeys ops ↔ ∀ op ∈ ops, ∀ entry ∈ op.point 0, UserKey entry.key := by
  constructor
  · exact fun users op member entry point => users op member 0 entry point
  intro users op member _ _ point
  cases op with
  | value key stored =>
    rw [← some.inj point]
    exact users _ member ⟨key, 0, .value, stored⟩ rfl
  | deletion key =>
    rw [← some.inj point]
    exact users _ member ⟨key, 0, .deletion, []⟩ rfl
  | rangeDeletion _ _ => simp [BatchOp.point] at point

instance (ops : List BatchOp) : Decidable (UserKeys ops) :=
  decidable_of_iff _ userKeys_iff.symm

theorem ordered_iff :
    Ordered ops ↔ ∀ op ∈ ops, ∀ entry ∈ op.point 0, entry.type = .value →
      lastTouch ops entry.key = some op := by
  constructor
  · intro ordered op member _ point put
    cases op with
    | value key stored =>
      rw [← some.inj point]
      exact ordered key stored member
    | deletion _ =>
      rw [← some.inj point] at put
      cases put
    | rangeDeletion _ _ => simp [BatchOp.point] at point
  · exact fun last key value member => last _ member ⟨key, 0, .value, value⟩ rfl rfl

instance (ops : List BatchOp) : Decidable (Ordered ops) :=
  decidable_of_iff _ ordered_iff.symm

instance decidableLogFits (options : Options) :
    ∀ ops manager files, Decidable (LogFits options ops manager files)
  | [], _, _ => .isTrue trivial
  | .value _ _ :: ops, _, _ =>
      have := decidableLogFits options ops
      inferInstanceAs (Decidable (_ ∧ _))
  | .deletion _ :: ops, manager, files => decidableLogFits options ops manager files
  | .rangeDeletion _ _ :: ops, manager, files => decidableLogFits options ops manager files

/-- An operation and its prepared form, whose stored value reads back. -/
inductive Prepared (manager : VLogManager) (files : List VLogFile) : BatchOp → BatchOp → Prop
  | value (key value stored : Bytes) (resident : Resident files stored)
      (reads : manager.unwrap files stored = .ok value) :
      Prepared manager files (.value key value) (.value key stored)
  | deletion (key : Bytes) : Prepared manager files (.deletion key) (.deletion key)
  | rangeDeletion (beginKey endKey : Bytes) :
      Prepared manager files (.rangeDeletion beginKey endKey) (.rangeDeletion beginKey endKey)

/-- Preparing operations extends the log and stores every value. -/
theorem prepareOps_spec (ops : List BatchOp) (sound : manager.Sound files)
    (fits : LogFits options ops manager files) :
    let prepared := prepareOps options ops manager files
    prepared.2.1.Sound prepared.2.2 ∧ LogExtends files prepared.2.2 ∧
      List.Forall₂ (Prepared prepared.2.1 prepared.2.2) ops prepared.1 := by
  induction ops generalizing manager files with
  | nil => exact ⟨sound, LogExtends.refl files, .nil⟩
  | cons op _ ih =>
    cases op with
    | value key value =>
      obtain ⟨storable, rest_fits⟩ := fits
      obtain ⟨stored_sound, stored_extends, resident, reads⟩ := storeValue_spec sound storable
      obtain ⟨later_sound, later_extends, prepared⟩ := ih stored_sound rest_fits
      refine ⟨later_sound, stored_extends.trans later_extends, .cons ?_ prepared⟩
      exact .value key value _ (resident.mono later_extends)
        ((unwrap_extends _ _ resident later_extends).trans reads)
    | deletion key =>
      obtain ⟨later_sound, later_extends, prepared⟩ := ih sound fits
      exact ⟨later_sound, later_extends, .cons (.deletion key) prepared⟩
    | rangeDeletion beginKey endKey =>
      obtain ⟨later_sound, later_extends, prepared⟩ := ih sound fits
      exact ⟨later_sound, later_extends, .cons (.rangeDeletion beginKey endKey) prepared⟩

theorem length_prepareOps (options : Options) (ops : List BatchOp) (manager : VLogManager)
    (files : List VLogFile) : (prepareOps options ops manager files).1.length = ops.length := by
  induction ops generalizing manager files with
  | nil => rfl
  | cons op _ ih => cases op <;> simp [prepareOps, ih]

section Prepared

variable {manager : VLogManager} {files : List VLogFile} {ops stored : List BatchOp}

theorem Prepared.touches_eq (prepared : Prepared manager files op form) (key : Bytes) :
    form.touches key = op.touches key := by
  cases prepared <;> rfl

theorem exists_of_forall₂ (all : List.Forall₂ related front back) (member : first ∈ front) :
    ∃ second ∈ back, related first second := by
  induction all with
  | nil => cases member
  | cons here _ ih =>
    rcases mem_cons.mp member with rfl | behind
    · exact ⟨_, mem_cons_self, here⟩
    · obtain ⟨second, inside, there⟩ := ih behind
      exact ⟨second, mem_cons_of_mem _ inside, there⟩

section

variable {op form : BatchOp} (prepared : Prepared manager files op form)
include prepared

/-- A prepared form makes a point of the same key and rank. -/
theorem Prepared.exists_point (point : op.point seq = some entry) :
    ∃ stored, form.point seq = some stored ∧ stored.key = entry.key ∧
      stored.rank = entry.rank := by
  cases prepared with
  | value key _ stored _ _ =>
    rw [← some.inj point]
    exact ⟨⟨key, seq, .value, stored⟩, rfl, rfl, rfl⟩
  | deletion _ => exact ⟨entry, point, rfl, rfl⟩
  | rangeDeletion _ _ => simp [BatchOp.point] at point

/-- The point of a prepared form belongs to a point of the client with the same key. -/
theorem Prepared.exists_client_point (point : form.point seq = some entry) :
    ∃ client, op.point seq = some client ∧ client.key = entry.key := by
  cases prepared with
  | value key value _ _ _ =>
    rw [← some.inj point]
    exact ⟨⟨key, seq, .value, value⟩, rfl, rfl⟩
  | deletion _ => exact ⟨entry, point, rfl⟩
  | rangeDeletion _ _ => simp [BatchOp.point] at point

/-- A prepared form reads the same behind an extension of the log. -/
theorem Prepared.mono (extended : LogExtends files more) : Prepared later more op form := by
  cases prepared with
  | value key value stored resident reads =>
    exact .value key value stored (resident.mono extended)
      ((unwrap_extends _ _ resident extended).trans reads)
  | deletion key => exact .deletion key
  | rangeDeletion beginKey endKey => exact .rangeDeletion beginKey endKey

end

variable (prepared : List.Forall₂ (Prepared manager files) ops stored)
include prepared

/-- A prepared operation belongs to an operation of the client. -/
theorem Prepared.exists_op (member : form ∈ stored) :
    ∃ op ∈ ops, Prepared manager files op form :=
  exists_of_forall₂ (List.Forall₂.flip prepared) member

/-- An operation of the client has its prepared form. -/
theorem Prepared.exists_form (member : op ∈ ops) :
    ∃ form ∈ stored, Prepared manager files op form :=
  exists_of_forall₂ prepared member

/-- The last operations that touch a key correspond. -/
theorem Prepared.lastTouch (key : Bytes) :
    lastTouch ops key = none ∧ lastTouch stored key = none ∨
      ∃ op form, lastTouch ops key = some op ∧ lastTouch stored key = some form ∧
        Prepared manager files op form := by
  induction prepared with
  | nil => exact .inl ⟨rfl, rfl⟩
  | @cons op form _ _ first _ ih =>
    rw [lastTouch_cons, lastTouch_cons, first.touches_eq key]
    rcases ih with ⟨none_left, stored_left⟩ | ⟨last, last_form, found, stored_found, related⟩
    · rw [none_left, stored_left]
      by_cases touched : op.touches key = true
      · rw [if_pos touched, if_pos touched]
        exact .inr ⟨op, form, rfl, rfl, first⟩
      · rw [if_neg touched, if_neg touched]
        exact .inl ⟨rfl, rfl⟩
    · rw [found, stored_found]
      exact .inr ⟨last, last_form, rfl, rfl, related⟩

/-- A stored value comes from a put of the client with the same key. -/
theorem Prepared.exists_put
    (member : entry ∈ stored.filterMap (BatchOp.point seq)) (value : entry.type = .value) :
    ∃ written, BatchOp.value entry.key written ∈ ops ∧
      manager.unwrap files entry.value = .ok written := by
  obtain ⟨_, inside, point, _⟩ := BatchOp.exists_touch_of_point member
  obtain ⟨_, client, related⟩ := exists_op prepared inside
  cases related with
  | value _ written _ _ reads =>
    simp only [BatchOp.point, some.injEq] at point
    subst point
    exact ⟨written, client, reads⟩
  | deletion _ =>
    simp only [BatchOp.point, some.injEq] at point
    subst point
    exact absurd value (by simp)
  | rangeDeletion _ _ => simp [BatchOp.point] at point

end Prepared

namespace Database

variable {db : Database} {ops : List BatchOp} {record : WALRecord}

section Points

variable (prepared : List.Forall₂ (Prepared db.vlog db.disk.vlogs) ops record.ops)
include prepared

/-- A point of the record comes from an operation of the client. -/
theorem exists_client (member : entry ∈ record.points) : ∃ op ∈ ops, ∃ form,
    Prepared db.vlog db.disk.vlogs op form ∧ form.point record.seq = some entry := by
  obtain ⟨form, inside, point⟩ := mem_filterMap.mp member
  obtain ⟨op, in_ops, related⟩ := Prepared.exists_op prepared inside
  exact ⟨op, in_ops, form, related, point⟩

/-- A point of the client is in the record, in its stored form. -/
theorem exists_stored (in_ops : op ∈ ops) (point : op.point record.seq = some entry) :
    ∃ stored ∈ record.points, stored.key = entry.key ∧ stored.rank = entry.rank := by
  obtain ⟨form, in_forms, related⟩ := Prepared.exists_form prepared in_ops
  obtain ⟨stored, stored_point, same⟩ := related.exists_point point
  exact ⟨stored, mem_filterMap.mpr ⟨form, in_forms, stored_point⟩, same⟩

/-- A tombstone of the record comes from a range deletion of the client. -/
theorem exists_rangeDeletion (member : tombstone ∈ record.tombstones) :
    BatchOp.rangeDeletion tombstone.beginKey tombstone.endKey ∈ ops := by
  obtain ⟨_, in_forms, point⟩ := mem_filterMap.mp member
  obtain ⟨_, in_ops, related⟩ := Prepared.exists_op prepared in_forms
  cases related with
  | value _ _ _ | deletion _ => simp [BatchOp.tombstone] at point
  | rangeDeletion _ _ =>
    rw [BatchOp.tombstone, some.injEq] at point
    rw [← point]
    exact in_ops

theorem userKey_of_prepared (keys : UserKeys ops) : ∀ entry ∈ record.points, UserKey entry.key := by
  intro entry member
  obtain ⟨_, in_ops, _, related, point⟩ := exists_client prepared member
  obtain ⟨_, client_point, same⟩ := related.exists_client_point point
  exact same ▸ keys _ in_ops record.seq _ client_point

theorem resident_of_prepared : ∀ entry ∈ record.points, Resident db.disk.vlogs entry.value := by
  intro _ member
  obtain ⟨_, _, _, related, point⟩ := exists_client prepared member
  cases related with
  | value _ _ _ resident _ =>
    rw [← some.inj point]
    exact resident
  | deletion _ =>
    rw [← some.inj point]
    intro _ _ _ points
    simp [pointer?] at points
  | rangeDeletion _ _ => simp [BatchOp.point] at point

theorem lastHighest_of_prepared (ordered : Ordered ops) : ∀ key front last,
    ofKey Entry.key key record.points = front ++ [last] →
      ∀ entry ∈ front, entry.rank ≤ last.rank := by
  intro key _ last shape entry earlier
  have entry_listed : entry ∈ ofKey Entry.key key record.points := by
    rw [shape]
    exact mem_append_left _ earlier
  have last_listed : last ∈ ofKey Entry.key key record.points := by
    rw [shape]
    simp
  obtain ⟨entry_in, entry_key⟩ := mem_ofKey.mp entry_listed
  obtain ⟨last_in, _⟩ := mem_ofKey.mp last_listed
  have same_seq : entry.seq = last.seq := by
    rw [seq_of_mem_points entry_in, seq_of_mem_points last_in]
  cases kind : entry.type with
  | deletion =>
    unfold Entry.rank
    rw [kind, same_seq]
    exact Nat.add_le_add_left (Nat.zero_le _) _
  | value =>
    obtain ⟨written, put, _⟩ := Prepared.exists_put prepared entry_in kind
    have decided := ordered entry.key written put
    rw [entry_key] at decided
    rcases Prepared.lastTouch prepared key with ⟨impossible, _⟩ | ⟨_, _, found, form_found, related⟩
    · rw [impossible] at decided
      exact absurd decided (by simp)
    rw [found, some.injEq] at decided
    subst decided
    cases related with
    | value _ _ _ _ _ =>
      have final := getLast_points record.seq form_found rfl
      change (ofKey Entry.key key record.points).getLast? = _ at final
      rw [shape, getLast?_concat, some.injEq] at final
      unfold Entry.rank
      rw [kind, same_seq, final]

theorem agree_of_prepared (ordered : Ordered ops) :
    ∀ first ∈ record.points, ∀ second ∈ record.points, first.key = second.key →
      first.rank = second.rank → first.type = .value →
        db.vlog.unwrap db.disk.vlogs first.value = db.vlog.unwrap db.disk.vlogs second.value := by
  intro first in_first second in_second same_key same_rank value
  have second_value := (rank_eq_iff.mp same_rank).2 ▸ value
  obtain ⟨written, put, reads⟩ := Prepared.exists_put prepared in_first value
  obtain ⟨other, other_put, other_reads⟩ := Prepared.exists_put prepared in_second second_value
  have decided := ordered first.key written put
  rw [same_key, ordered second.key other other_put, some.injEq, BatchOp.value.injEq] at decided
  rw [reads, other_reads, decided.2]

/-- A record of prepared operations can be committed if the operations are ordered. -/
theorem committable_of_prepared (claimed : record.seq < db.lastSeq)
    (above : ∀ entry ∈ record.points, ∀ other ∈ db.points, other.key = entry.key →
      other.seq < record.seq)
    (keys : UserKeys ops) (ordered : Ordered ops) : Committable db record where
  claimed := claimed
  keys := userKey_of_prepared prepared keys
  above := above
  apart := fun entry new other old same => ne_of_lt (above entry new other old same)
  lastHighest := lastHighest_of_prepared prepared ordered
  agree := agree_of_prepared prepared ordered
  resident := resident_of_prepared prepared

end Points

/-- The last point of a prepared record, or its tombstones, answer as the operations say. -/
theorem answer_of_prepared
    (prepared : List.Forall₂ (Prepared db.vlog db.disk.vlogs) ops record.ops)
    (ordered : Ordered ops) :
    db.recordAnswer record key before = Store.answerAfter ops key before := by
  unfold recordAnswer Store.answerAfter
  rcases Prepared.lastTouch prepared key with
    ⟨untouched, none_left⟩ | ⟨_, _, found, form_found, related⟩
  · -- Nothing touches the key.
    rw [untouched]
    have no_touch : ∀ op ∈ record.ops, op.touches key ≠ true := by
      intro _ member touched
      obtain ⟨_, impossible⟩ := BatchOp.lastTouch_isSome member touched
      rw [none_left] at impossible
      exact absurd impossible (by simp)
    have pointless : ofKey Entry.key key record.points = [] := by
      apply eq_nil_iff_forall_not_mem.mpr
      intro _ member
      obtain ⟨inside, same⟩ := mem_ofKey.mp member
      obtain ⟨op, in_ops, _, touched⟩ := BatchOp.exists_touch_of_point inside
      exact no_touch op in_ops (same ▸ touched)
    have unspanned : ¬ (record.tombstones.any fun tombstone => tombstone.spans key) = true := by
      intro spanned
      obtain ⟨op, member, _, touched⟩ := any_spans_iff.mp spanned
      exact no_touch op member touched
    rw [pointless]
    simp only [unspanned]
    rfl
  · rw [found]
    cases related with
    | value _ _ _ _ reads =>
      have final := getLast_points record.seq form_found rfl
      change (ofKey Entry.key key record.points).getLast? = _ at final
      rw [final]
      simpa [outcome] using reads
    | deletion _ =>
      have final := getLast_points record.seq form_found rfl
      change (ofKey Entry.key key record.points).getLast? = _ at final
      rw [final]
      simp [outcome]
    | rangeDeletion _ _ =>
      -- The key is not put, so a point of it is a deletion.
      have spanned : (record.tombstones.any fun tombstone => tombstone.spans key) = true :=
        any_spans_iff.mpr ⟨_, (mem_of_lastTouch form_found).1, rfl,
          (mem_of_lastTouch form_found).2⟩
      cases last_eq : (ofKey Entry.key key record.points).getLast? with
      | none => simp [spanned, outcome]
      | some last =>
        obtain ⟨inside, same⟩ := mem_ofKey.mp (mem_of_getLast? last_eq)
        cases kind : last.type with
        | deletion => simp [kind, outcome]
        | value =>
          obtain ⟨written, put, _⟩ := Prepared.exists_put prepared inside kind
          have decided := ordered last.key written put
          rw [same, found] at decided
          exact absurd decided (by simp)

section Claimed

variable (claimed : Consistent db.claim) (seq_eq : record.seq = db.lastSeq)
  (ops_eq : record.ops = (prepareOps db.options ops db.vlog db.disk.vlogs).1)
  (apart : ∀ entry ∈ db.points, (∃ op ∈ ops, op.touches entry.key = true) →
    entry.seq ≠ db.lastSeq)
  (keys : UserKeys ops) (ordered : Ordered ops)
  (fits : LogFits db.options ops db.vlog db.disk.vlogs)

include claimed fits ops_eq in
/-- The record is the prepared form of the operations. -/
theorem Consistent.prepared_claimed :
    let later := db.claim.withVLog (prepareOps db.options ops db.vlog db.disk.vlogs).2
    Consistent later ∧ (∀ key, UserKey key → later.get key = db.claim.get key) ∧
      List.Forall₂ (Prepared later.vlog later.disk.vlogs) ops record.ops := by
  have readable : db.vlog.Sound db.disk.vlogs := claimed.sound
  obtain ⟨sound, extended, prepared⟩ := prepareOps_spec ops readable fits
  obtain ⟨logged, answers⟩ := claimed.withVLog sound extended
  rw [← ops_eq] at prepared
  exact ⟨logged, answers, prepared⟩

include claimed seq_eq apart in
theorem Consistent.seq_lt_of_touched (point : entry ∈ db.points)
    (touched : ∃ op ∈ ops, op.touches entry.key = true) : entry.seq < record.seq := by
  have other := apart entry point touched
  obtain ⟨_, run, member, inside⟩ := point
  have older : entry.seq < db.lastSeq + 1 := claimed.older run member entry inside
  omega

include claimed seq_eq ops_eq apart keys ordered fits

theorem Consistent.committable_claimed : Committable (db.claim.withVLog
    (prepareOps db.options ops db.vlog db.disk.vlogs).2) record := by
  obtain ⟨_, _, prepared⟩ := claimed.prepared_claimed ops_eq fits
  refine committable_of_prepared prepared (seq_eq ▸ Nat.lt_succ_self _) ?_ keys ordered
  intro _ written _ member same
  obtain ⟨op, in_ops, _, formed, point⟩ := exists_client prepared written
  refine claimed.seq_lt_of_touched seq_eq apart member ⟨op, in_ops, ?_⟩
  rw [same, ← formed.touches_eq]
  exact BatchOp.touches_of_point point

/-- A write of ordered operations answers as the operations say, if none of the versions
they touch has the sequence number already. -/
theorem Consistent.write_claimed :
    let later :=
      (db.claim.withVLog (prepareOps db.options ops db.vlog db.disk.vlogs).2).commit record
    Consistent later ∧ ∀ key, UserKey key →
      later.get key = Store.answerAfter ops key (db.claim.get key) := by
  obtain ⟨logged, answers, prepared⟩ := claimed.prepared_claimed ops_eq fits
  have committable := claimed.committable_claimed seq_eq ops_eq apart keys ordered fits
  refine ⟨logged.commit committable, ?_⟩
  intro key user
  rw [logged.get_commit committable ?_ ?_ user, answer_of_prepared prepared ordered,
    answers key user]
  · rintro _ point ⟨_, deleted, spans⟩
    exact claimed.seq_lt_of_touched seq_eq apart point
      ⟨_, exists_rangeDeletion prepared deleted, spans⟩
  · intro tombstone registered
    have past : tombstone.seq < db.lastSeq + 1 := claimed.pastTombstones tombstone registered
    omega

end Claimed

/-- With a new sequence number that is always so. -/
theorem Consistent.write (consistent : Consistent db) (room : db.lastSeq < 2 ^ 56)
    (seq_eq : record.seq = db.lastSeq)
    (ops_eq : record.ops = (prepareOps db.options ops db.vlog db.disk.vlogs).1)
    (keys : UserKeys ops) (ordered : Ordered ops)
    (fits : LogFits db.options ops db.vlog db.disk.vlogs) :
    let later :=
      (db.claim.withVLog (prepareOps db.options ops db.vlog db.disk.vlogs).2).commit record
    Consistent later ∧ ∀ key, UserKey key →
      later.get key = Store.answerAfter ops key (db.get key) := by
  obtain ⟨claimed, claimed_get⟩ := consistent.claim room
  have apart : ∀ entry ∈ db.points, entry.seq ≠ db.lastSeq := by
    rintro entry ⟨_, run, member, inside⟩
    exact ne_of_lt (consistent.older run member entry inside)
  obtain ⟨later, answers⟩ := claimed.write_claimed seq_eq ops_eq
    (fun entry point _ => apart entry point) keys ordered fits
  refine ⟨later, fun key user => ?_⟩
  rw [answers key user, claimed_get key user]

/-- Operations that are no list but a single one are ordered. -/
theorem ordered_singleton (op : BatchOp) : Ordered [op] := by
  intro _ _ member
  rw [← mem_singleton.mp member]
  simp [lastTouch, BatchOp.touches]

end Database

end LightKV
