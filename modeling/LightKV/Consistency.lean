import LightKV.PointRead

/-!
# The invariant of the engine

A database in operation is `Consistent`: it can be read, and beyond that its sequence
numbers fit the packed form of a table, memtables hold user keys only, tables hold user
keys and registered range tombstones, and every stored value that points into the value
log points to bytes that are there. A snapshot is `Viewed` at a key if it can be read there
and goes on to be; a database in operation has the latest snapshot in view at every key.

Writes and flushes keep the invariant. A flush changes no answer. A write needs that its
sequence number is above those its keys already have; the operations of one record may
repeat a key as long as the last of them has the highest rank and those of one rank read
the same.
-/

namespace LightKV

open Versions Levels List Option SSTable

namespace Database

/-- What memtables, tables and the value log keep, in whatever order versions were inserted. -/
structure Housed (db : Database) : Prop extends Formed db where
  bounded : db.lastSeq ≤ 2 ^ 56
  memKeys : ∀ entry ∈ db.mem.nodes, UserKey entry.key
  immKeys : ∀ imm, db.imm = some imm → ∀ entry ∈ imm.nodes, UserKey entry.key
  stored : ∀ table ∈ db.tables, ∀ entry ∈ table.entries, UserKey entry.key ∨
    ∃ tombstone ∈ db.rangeTombstones, entry = SSTable.tombstoneEntry tombstone
  pastTombstones : ∀ tombstone ∈ db.rangeTombstones, tombstone.seq < db.lastSeq
  idle : db.imm = none → db.flushing = false
  resident : ∀ entry ∈ db.points, Resident db.disk.vlogs entry.value
  sound : db.vlog.Sound db.disk.vlogs

/-- The invariant. -/
structure Consistent (db : Database) : Prop extends Readable db, Housed db where
  flushed : db.flushing = true → ∀ imm, db.imm = some imm → ∀ entry ∈ imm.nodes,
    ∃ table ∈ db.tables, ∃ newer ∈ table.entries,
      newer.key = entry.key ∧ entry.rank ≤ newer.rank

variable {db : Database} {entry : Entry} {imm : MemTable} {table : SSTable} {visible : Entry → Prop}

/-! ## Versions and their answers -/

theorem not_userKey_tombstoneEntry (tombstone : RangeTombstone) :
    ¬ UserKey (SSTable.tombstoneEntry tombstone).key := by
  rintro ⟨_, ordinary⟩
  rw [reserved_tombstoneEntry] at ordinary
  exact absurd ordinary (by decide)

theorem mem_points_of_mem (user : UserKey entry.key) (member : entry ∈ db.mem.nodes) :
    entry ∈ db.points := ⟨user, db.mem.nodes, .inl rfl, member⟩

theorem mem_points_of_imm (rotated : db.imm = some imm) (user : UserKey entry.key)
    (member : entry ∈ imm.nodes) : entry ∈ db.points :=
  ⟨user, imm.nodes, .inr (.inl ⟨imm, rotated, rfl⟩), member⟩

theorem mem_points_of_table (present : table ∈ db.tables) (user : UserKey entry.key)
    (member : entry ∈ table.entries) : entry ∈ db.points :=
  ⟨user, table.entries, .inr (.inr ⟨table, present, rfl⟩), member⟩

theorem Housed.key_ne_nil (housed : Housed db) (present : table ∈ db.tables)
    (member : entry ∈ table.entries) : entry.key ≠ [] := by
  rcases housed.stored table present entry member with user | ⟨_, _, rfl⟩
  · exact user.1
  · simp [tombstoneEntry, marker]

/-- A version whose key is not that of a stored tombstone belongs to a user key. -/
theorem Housed.userKey_of_unreserved (housed : Housed db) (member : run ∈ db.runs)
    (inside : entry ∈ run) (unmarked : reserved entry.key = false) : UserKey entry.key := by
  rcases member with rfl | ⟨imm, rotated, rfl⟩ | ⟨_, present, rfl⟩
  · exact housed.memKeys entry inside
  · exact housed.immKeys imm rotated entry inside
  · exact ⟨housed.key_ne_nil present inside, unmarked⟩

/-- Versions whose values read alike resolve alike, under the same range tombstones. -/
theorem resolve_congr {later : Database}
    (tombstones : ∀ tombstone, tombstone ∈ later.rangeTombstones ↔ tombstone ∈
      db.rangeTombstones) (past : ∀ tombstone ∈ db.rangeTombstones, tombstone.seq < db.lastSeq)
    (later_past : ∀ tombstone ∈ later.rangeTombstones, tombstone.seq < later.lastSeq)
    (reads : later.vlog.unwrap later.disk.vlogs entry.value = db.vlog.unwrap db.disk.vlogs
      entry.value) : later.resolve entry = db.resolve entry := by
  unfold resolve resolveAt answerValue
  rw [reads, covered_congr tombstones (fun tombstone member =>
    le_of_lt (later_past tombstone member)) (fun tombstone member =>
    le_of_lt (past tombstone ((tombstones tombstone).mp member)))]

/-- A step that changes no answer: it adds no version and leaves the sequence number and
the range tombstones alone. -/
structure Maintains (db later : Database) : Prop where
  consistent : Consistent later
  points : later.points ⊆ db.points
  lastSeq : later.lastSeq = db.lastSeq
  rangeTombstones : later.rangeTombstones = db.rangeTombstones
  answers : ∀ key, UserKey key → later.get key = db.get key

/-! ## Changing tables -/

/-- The later state has the same writes in front of its tables; it may have dropped the
immutable memtable. -/
structure SameFront (db later : Database) : Prop where
  lastSeq : later.lastSeq = db.lastSeq
  mem : later.mem = db.mem
  imm : later.imm = db.imm ∨ later.imm = none
  rangeTombstones : later.rangeTombstones = db.rangeTombstones
  vlog : later.vlog = db.vlog
  vlogs : later.disk.vlogs = db.disk.vlogs

theorem SameFront.imm_eq (front : SameFront db later) (rotated : later.imm = some imm) :
    db.imm = some imm := by
  rcases front.imm with same | dropped
  · exact same ▸ rotated
  · rw [dropped] at rotated
    exact absurd rotated (by simp)

/-- Of every visible version in an immutable memtable that is being flushed, the tables hold
one that is visible and at least as new. -/
def Flushed (visible : Entry → Prop) (db : Database) : Prop :=
  db.flushing = true → ∀ imm, db.imm = some imm → ∀ entry ∈ imm.nodes, visible entry →
    ∃ table ∈ db.tables, ∃ newer ∈ table.entries,
      newer.key = entry.key ∧ entry.rank ≤ newer.rank ∧ visible newer

/-- The versions of a key that a snapshot sees. -/
def InView (snapshot : Nat) (key : Bytes) (entry : Entry) : Prop :=
  entry.key = key ∧ entry.seq ≤ snapshot

/-- What a database keeps for the readers of a key at a snapshot. -/
structure Viewed (db : Database) (snapshot : Nat) (key : Bytes) : Prop
    extends FrontFirst db snapshot key where
  unsplit : ∀ level, 1 ≤ level → level < numLevels →
    Unsplit snapshot key (versionsOf (db.levels level))
  flushed : Flushed (InView snapshot key) db

/-- Tables are exchanged for others that hold versions of the database or registered
tombstones, and of every visible version one that is visible and at least as new; what
tables held is matched in tables. -/
structure Exchanges (visible : Entry → Prop) (db later : Database) : Prop where
  front : SameFront db later
  wellFormed : ∀ table ∈ later.tables, table.WellFormed
  level : ∀ level, 1 ≤ level → level < numLevels →
    Level Entry.key Entry.rank SSTable.entries (later.levels level)
  closed : TieClosed later.runs
  stored : ∀ table ∈ later.tables, ∀ entry ∈ table.entries, entry ∈ db.points ∨
    ∃ tombstone ∈ db.rangeTombstones, entry = SSTable.tombstoneEntry tombstone
  idle : later.imm = none → later.flushing = false
  keeps : ∀ entry ∈ db.points, visible entry → ∃ newer ∈ later.points,
    newer.key = entry.key ∧ entry.rank ≤ newer.rank ∧ visible newer
  flushed : Flushed visible later
  matched : ∀ table ∈ db.tables, ∀ entry ∈ table.entries, visible entry →
    ∃ other ∈ later.tables, ∃ newer ∈ other.entries,
      newer.key = entry.key ∧ entry.rank ≤ newer.rank ∧ visible newer

/-- Every table holds versions of user keys and registered tombstones. -/
theorem Housed.stored_cases (housed : Housed db) (present : table ∈ db.tables)
    (inside : entry ∈ table.entries) :
    entry ∈ db.points ∨
      ∃ tombstone ∈ db.rangeTombstones, entry = SSTable.tombstoneEntry tombstone :=
  (housed.stored table present entry inside).imp_left
    fun user => mem_points_of_table present user inside

theorem Housed.exchanges_refl (housed : Housed db) (flushed : Flushed visible db) :
    Exchanges visible db db :=
  { housed with
    front := ⟨rfl, rfl, .inl rfl, rfl, rfl, rfl⟩
    stored := fun _ present _ inside => housed.stored_cases present inside
    keeps := fun entry member seen => ⟨entry, member, rfl, le_refl _, seen⟩
    flushed := flushed
    matched := fun table present entry inside seen =>
      ⟨table, present, entry, inside, rfl, le_refl _, seen⟩ }

section Exchange

variable {visible : Entry → Prop} {later : Database}

/-- An exchange adds no version. -/
theorem Exchanges.points_subset (exchanges : Exchanges visible db later) :
    later.points ⊆ db.points := by
  rintro entry ⟨user, _, member, inside⟩
  rcases member with rfl | ⟨_, rotated, rfl⟩ | ⟨table, present, rfl⟩
  · exact mem_points_of_mem user (exchanges.front.mem ▸ inside)
  · exact mem_points_of_imm (exchanges.front.imm_eq rotated) user inside
  · rcases exchanges.stored table present entry inside with old | ⟨tombstone, _, rfl⟩
    · exact old
    · exact absurd user (not_userKey_tombstoneEntry tombstone)

theorem Housed.exchange (housed : Housed db) (exchanges : Exchanges visible db later) :
    Housed later := by
  have front := exchanges.front
  have subset := exchanges.points_subset
  exact
    { older := by
        intro _ member entry inside
        rw [front.lastSeq]
        rcases member with rfl | ⟨imm, rotated, rfl⟩ | ⟨table, present, rfl⟩
        · exact housed.older _ (.inl rfl) entry (front.mem ▸ inside)
        · exact housed.older _ (.inr (.inl ⟨imm, front.imm_eq rotated, rfl⟩)) entry inside
        · rcases exchanges.stored table present entry inside with
            ⟨_, old, in_old, held⟩ | ⟨tombstone, known, rfl⟩
          · exact housed.older old in_old entry held
          · exact housed.pastTombstones tombstone known
      wellFormed := exchanges.wellFormed
      level := exchanges.level
      closed := exchanges.closed
      memTombstones := by
        rw [front.mem, front.rangeTombstones]
        exact housed.memTombstones
      immTombstones := by
        intro imm rotated
        rw [front.rangeTombstones]
        exact housed.immTombstones imm (front.imm_eq rotated)
      bounded := front.lastSeq ▸ housed.bounded
      memKeys := by
        rw [front.mem]
        exact housed.memKeys
      immKeys := fun imm rotated => housed.immKeys imm (front.imm_eq rotated)
      stored := by
        intro table present entry inside
        rw [front.rangeTombstones]
        exact (exchanges.stored table present entry inside).imp_left fun old => old.1
      pastTombstones := by
        rw [front.rangeTombstones, front.lastSeq]
        exact housed.pastTombstones
      idle := exchanges.idle
      resident := by
        intro entry member
        rw [front.vlogs]
        exact housed.resident entry (subset member)
      sound := by
        rw [front.vlog, front.vlogs]
        exact housed.sound }

/-- In the invariant every version counts. -/
theorem Consistent.flushed_all (consistent : Consistent db) : Flushed (fun _ => True) db := by
  intro running imm rotated entry inside _
  obtain ⟨table, present, newer, held, same, at_least⟩ :=
    consistent.flushed running imm rotated entry inside
  exact ⟨table, present, newer, held, same, at_least, trivial⟩

/-- An exchange that keeps every version, or a newer one, keeps the invariant and the
answers. -/
theorem Consistent.exchange (consistent : Consistent db)
    (exchanges : Exchanges (fun _ => True) db later) : Maintains db later := by
  have front := exchanges.front
  have subset := exchanges.points_subset
  have housed := consistent.toHoused.exchange exchanges
  have kept : ∀ entry ∈ db.points, ∃ newer ∈ later.points,
      newer.key = entry.key ∧ entry.rank ≤ newer.rank := by
    intro entry member
    obtain ⟨newer, inside, same, at_least, _⟩ := exchanges.keeps entry member trivial
    exact ⟨newer, inside, same, at_least⟩
  have newest : ∀ key entry, entry ∈ later.points →
      Newest Entry.key Entry.rank db.points key entry →
      Newest Entry.key Entry.rank later.points key entry :=
    fun _ _ present before =>
      ⟨present, before.2.1, fun other member => before.2.2 other (subset member)⟩
  have later_consistent : Consistent later :=
    { housed with
      memFirst := by
        intro key user head rest stack
        have inside : head ∈ later.mem.nodes ∧ head.key = key :=
          MemTable.mem_versions.mp (stack ▸ mem_cons_self)
        refine newest key head (mem_points_of_mem (inside.2 ▸ user) inside.1) ?_
        exact consistent.memFirst key user head rest (front.mem ▸ stack)
      immFirst := by
        intro imm rotated key user unwritten head rest stack
        have inside : head ∈ imm.nodes ∧ head.key = key :=
          MemTable.mem_versions.mp (stack ▸ mem_cons_self)
        refine newest key head (mem_points_of_imm rotated (inside.2 ▸ user) inside.1) ?_
        exact consistent.immFirst imm (front.imm_eq rotated) key user (front.mem ▸ unwritten) head
          rest stack
      coherent := by
        intro first in_first second in_second
        rw [front.vlog, front.vlogs]
        exact consistent.coherent first (subset in_first) second (subset in_second)
      flushed := by
        intro running imm rotated entry inside
        obtain ⟨table, present, newer, held, same, at_least, _⟩ :=
          exchanges.flushed running imm rotated entry inside trivial
        exact ⟨table, present, newer, held, same, at_least⟩ }
  refine ⟨later_consistent, subset, front.lastSeq, front.rangeTombstones, ?_⟩
  intro _ user
  refine consistent.toReadable.get_eq_of_covers later_consistent.toReadable ⟨subset, kept⟩ ?_ user
  intro _ _
  apply resolve_congr
  · intro _
    rw [front.rangeTombstones]
  · exact consistent.pastTombstones
  · exact housed.pastTombstones
  · rw [front.vlog, front.vlogs]

end Exchange

/-- A snapshot that sees every version is in view. -/
theorem Consistent.viewed (consistent : Consistent db) (latest : db.lastSeq ≤ snapshot)
    (user : UserKey key) : Viewed db snapshot key := by
  have readable := consistent.toReadable.readableAt latest user
  refine ⟨readable.toFrontFirst, readable.searchable.unsplit, ?_⟩
  intro running imm rotated entry inside ⟨entry_key, _⟩
  obtain ⟨table, present, newer, held, same, at_least⟩ :=
    consistent.flushed running imm rotated entry inside
  refine ⟨table, present, newer, held, same, at_least, same.trans entry_key,
    le_trans (le_of_lt ?_) latest⟩
  exact consistent.toHoused.older _ (.inr (.inr ⟨table, present, rfl⟩)) newer held

/-- The invariant holds if the latest snapshot is in view at every key. -/
theorem Housed.consistent (housed : Housed db)
    (viewed : ∀ key, UserKey key → Viewed db db.lastSeq key) : Consistent db := by
  have all := seen_eq_points housed.older (le_refl _)
  have mem_head := fun key => db.mem.seen_eq_head key fun entry member =>
    le_of_lt (housed.older _ (.inl rfl) entry member)
  exact
    { housed with
      memFirst := by
        intro key user head _ stack
        have found := mem_head key
        rw [stack] at found
        exact all ▸ (viewed key user).memFirst head found
      immFirst := by
        intro imm rotated key user unwritten head _ stack
        have unseen := mem_head key
        have found := imm.seen_eq_head key fun entry member =>
          le_of_lt (housed.older _ (.inr (.inl ⟨imm, rotated, rfl⟩)) entry member)
        rw [unwritten] at unseen
        rw [stack] at found
        exact all ▸ (viewed key user).immFirst imm rotated unseen head found
      coherent := by
        rw [← all]
        intro first in_first second in_second same
        exact (viewed first.key in_first.1.1).coherent first in_first second in_second rfl same.symm
      flushed := by
        intro running imm rotated entry inside
        have user := housed.immKeys imm rotated entry inside
        have seen := housed.older _ (.inr (.inl ⟨imm, rotated, rfl⟩)) entry inside
        obtain ⟨table, present, newer, held, same, at_least, _⟩ := (viewed entry.key user).flushed
          running imm rotated entry inside ⟨rfl, le_of_lt seen⟩
        exact ⟨table, present, newer, held, same, at_least⟩ }

/-! ## Rotation and flush -/

/-- A rotation puts an empty memtable in front and moves nothing else. -/
structure Rotated (db later : Database) : Prop where
  free : db.imm = none
  mem : later.mem = .new
  imm : later.imm = some db.mem
  levels : later.levels = db.levels
  lastSeq : later.lastSeq = db.lastSeq
  rangeTombstones : later.rangeTombstones = db.rangeTombstones
  vlog : later.vlog = db.vlog
  vlogs : later.disk.vlogs = db.disk.vlogs
  flushing : later.flushing = db.flushing

/-- `TriggerFlush` rotates if no flush is pending. -/
theorem rotated_triggerFlush (free : db.imm = none) : Rotated db db.triggerFlush := by
  rw [triggerFlush_of_none free]
  exact ⟨free, rfl, rfl, rfl, rfl, rfl, rfl, rfl, rfl⟩

theorem triggerFlush_cases (db : Database) : db.triggerFlush = db ∨ Rotated db db.triggerFlush := by
  cases pending : db.imm with
  | some _ => exact .inl (triggerFlush_of_some pending)
  | none => exact .inr (rotated_triggerFlush pending)

section Rotation

variable {later : Database} (rotated : Rotated db later)
include rotated

theorem Rotated.tables : later.tables = db.tables := by
  rw [Database.tables, Database.tables, rotated.levels]

theorem Rotated.run_of_mem (member : run ∈ later.runs) (inside : entry ∈ run) :
    run ∈ db.runs := by
  rcases member with rfl | ⟨_, later_imm, rfl⟩ | present
  · rw [rotated.mem] at inside
    exact absurd inside (by simp [MemTable.new])
  · rw [rotated.imm, some.injEq] at later_imm
    exact .inl (by rw [later_imm])
  · exact .inr (.inr (rotated.tables ▸ present))

theorem Rotated.points : later.points = db.points := by
  ext _
  constructor
  · rintro ⟨user, run, member, inside⟩
    exact ⟨user, run, rotated.run_of_mem member inside, inside⟩
  rintro ⟨user, run, rfl | ⟨_, impossible, _⟩ | present, inside⟩
  · exact ⟨user, _, .inr (.inl ⟨db.mem, rotated.imm, rfl⟩), inside⟩
  · rw [rotated.free] at impossible
    exact absurd impossible (by simp)
  · exact ⟨user, run, .inr (.inr (rotated.tables ▸ present)), inside⟩

theorem Housed.rotate (housed : Housed db) : Housed later where
  older := by
    intro run member entry inside
    rw [rotated.lastSeq]
    exact housed.older run (rotated.run_of_mem member inside) entry inside
  wellFormed := rotated.tables ▸ housed.wellFormed
  level := rotated.levels ▸ housed.level
  closed := by
    intro run member other in_other entry inside above in_above
    exact housed.closed run (rotated.run_of_mem member inside) other
      (rotated.run_of_mem in_other in_above) entry inside above in_above
  memTombstones := by
    rw [rotated.mem]
    exact nil_subset _
  immTombstones := by
    intro _ later_imm
    rw [rotated.imm, some.injEq] at later_imm
    rw [← later_imm, rotated.rangeTombstones]
    exact housed.memTombstones
  bounded := rotated.lastSeq ▸ housed.bounded
  memKeys := by
    rw [rotated.mem]
    exact fun _ impossible => absurd impossible (by simp [MemTable.new])
  immKeys := by
    intro _ later_imm
    rw [rotated.imm, some.injEq] at later_imm
    rw [← later_imm]
    exact housed.memKeys
  stored := by
    rw [rotated.tables, rotated.rangeTombstones]
    exact housed.stored
  pastTombstones := by
    rw [rotated.rangeTombstones, rotated.lastSeq]
    exact housed.pastTombstones
  idle := fun _ => rotated.flushing.trans (housed.idle rotated.free)
  resident := by
    rw [rotated.points, rotated.vlogs]
    exact housed.resident
  sound := by
    rw [rotated.vlog, rotated.vlogs]
    exact housed.sound

/-- Behind a rotation no flush is running. -/
theorem Rotated.flushed (housed : Housed db) (visible : Entry → Prop) :
    Flushed visible later := by
  intro running
  rw [rotated.flushing, housed.idle rotated.free] at running
  exact absurd running (by decide)

theorem Rotated.seen : later.seen snapshot = db.seen snapshot := by
  unfold Database.seen
  rw [rotated.points]

theorem Viewed.rotate (viewed : Viewed db snapshot key) (housed : Housed db) :
    Viewed later snapshot key where
  user := viewed.user
  unsplit := rotated.levels ▸ viewed.unsplit
  memFirst := by
    intro _ found
    rw [rotated.mem] at found
    exact absurd found (by simp [MemTable.seen])
  immFirst := by
    intro _ later_imm _ entry found
    rw [rotated.imm, some.injEq] at later_imm
    rw [rotated.seen]
    exact viewed.memFirst entry (later_imm ▸ found)
  coherent := by
    rw [rotated.seen, rotated.vlog, rotated.vlogs]
    exact viewed.coherent
  flushed := rotated.flushed housed _

/-- A rotation keeps the invariant and the answers. -/
theorem Consistent.rotate_maintains (consistent : Consistent db) : Maintains db later := by
  have housed := consistent.toHoused.rotate rotated
  have later_consistent : Consistent later := housed.consistent fun _ user =>
    (consistent.viewed (le_of_eq rotated.lastSeq.symm) user).rotate rotated consistent.toHoused
  refine ⟨later_consistent, rotated.points.subset, rotated.lastSeq, rotated.rangeTombstones, ?_⟩
  intro _ user
  refine consistent.toReadable.get_eq_of_covers later_consistent.toReadable ?_ ?_ user
  · rw [rotated.points]
    exact Covers.refl
  intro _ _
  apply resolve_congr
  · intro _
    rw [rotated.rangeTombstones]
  · exact consistent.pastTombstones
  · exact housed.pastTombstones
  · rw [rotated.vlog, rotated.vlogs]

end Rotation

/-- At one sequence number only a deletion is below another version. -/
theorem deletion_of_rank_lt {above : Entry} (same : above.seq = entry.seq)
    (below : entry.rank < above.rank) : entry.type = .deletion := by
  cases kind : entry.type with
  | deletion => rfl
  | value =>
    have bound := above.type.byte_le_one
    unfold Entry.rank at below
    rw [kind] at below
    simp only [ValueType.byte] at below bound
    omega

variable {sorter : StdSort internalKeyLess}

theorem mem_flushEntries {mem : MemTable} (bounded : ∀ entry ∈ mem.nodes, entry.seq < 2 ^ 56)
    (bounded_tombstones : ∀ tombstone ∈ mem.rangeTombstones, tombstone.seq < 2 ^ 56) :
    entry ∈ flushEntries sorter mem ↔ entry ∈ mem.nodes ∨
      ∃ tombstone ∈ mem.rangeTombstones, entry = SSTable.tombstoneEntry tombstone := by
  unfold flushEntries
  rw [(sortEntries_perm sorter ?_).mem_iff, mem_append, List.mem_map]
  · simp only [eq_comm]
  intro other member
  rcases mem_append.mp member with node | stored
  · exact bounded other node
  · obtain ⟨tombstone, inside, rfl⟩ := mem_map.mp stored
    exact bounded_tombstones tombstone inside

theorem Housed.userKey_of_deletion (housed : Housed db) (member : run ∈ db.runs)
    (inside : entry ∈ run) (deleted : entry.type = .deletion) : UserKey entry.key := by
  rcases member with rfl | ⟨imm, rotated, rfl⟩ | ⟨table, present, rfl⟩
  · exact housed.memKeys entry inside
  · exact housed.immKeys imm rotated entry inside
  · rcases housed.stored table present entry inside with user | ⟨_, _, rfl⟩
    · exact user
    · exact absurd deleted (by simp [tombstoneEntry])

section

variable (housed : Housed db) (rotated : db.imm = some imm)
include housed rotated

/-- The versions and tombstones of an immutable memtable fit the packed form. -/
theorem Housed.imm_bounded :
    (∀ entry ∈ imm.nodes, entry.seq < 2 ^ 56) ∧
      ∀ tombstone ∈ imm.rangeTombstones, tombstone.seq < 2 ^ 56 :=
  ⟨fun entry member => lt_of_lt_of_le
      (housed.older _ (.inr (.inl ⟨imm, rotated, rfl⟩)) entry member) housed.bounded,
    fun tombstone member => lt_of_lt_of_le
      (housed.pastTombstones tombstone (housed.immTombstones imm rotated member)) housed.bounded⟩

theorem Housed.mem_flushEntries_imm (sorter : StdSort internalKeyLess) (entry : Entry) :
    entry ∈ flushEntries sorter imm ↔ entry ∈ imm.nodes ∨
      ∃ tombstone ∈ imm.rangeTombstones, entry = SSTable.tombstoneEntry tombstone :=
  mem_flushEntries (housed.imm_bounded rotated).1 (housed.imm_bounded rotated).2

/-- The table of a flush is sorted and known to its filter. -/
theorem Housed.wellFormed_flush {options : Options} {fileId : Nat} :
    (TableBuilder.build options fileId (flushEntries sorter imm)).WellFormed := by
  apply wellFormed_build
  apply sortEntries_sorted
  · intro entry member
    rcases mem_append.mp member with node | stored
    · exact (housed.imm_bounded rotated).1 entry node
    · obtain ⟨tombstone, inside, rfl⟩ := mem_map.mp stored
      exact (housed.imm_bounded rotated).2 tombstone inside
  · intro entry member
    rcases mem_append.mp member with node | stored
    · exact (housed.immKeys imm rotated entry node).1
    · obtain ⟨_, _, rfl⟩ := mem_map.mp stored
      simp [tombstoneEntry, marker]

/-- Adding the flushed form of the immutable memtable keeps the runs in agreement. -/
theorem Housed.tieClosed_flush : TieClosed (db.runs ∪ {flushEntries sorter imm}) := by
  have in_runs : imm.nodes ∈ db.runs := .inr (.inl ⟨imm, rotated, rfl⟩)
  have inside := housed.mem_flushEntries_imm rotated sorter
  intro run member other in_other entry held above in_above same_key same_seq below
  have deleted := deletion_of_rank_lt same_seq below
  -- A version in the flushed run that is below or above another one is a node.
  have source : ∃ old ∈ db.runs, entry ∈ old ∧ ∀ version ∈ old, version ∈ run := by
    rcases member with old | rfl
    · exact ⟨run, old, held, fun _ kept => kept⟩
    · rcases (inside entry).mp held with node | ⟨_, _, rfl⟩
      · exact ⟨imm.nodes, in_runs, node, fun version node => (inside version).mpr (.inl node)⟩
      · exact absurd deleted (by simp [tombstoneEntry])
  obtain ⟨old, in_old, old_held, carried⟩ := source
  have user := housed.userKey_of_deletion in_old old_held deleted
  have above_source : ∃ from_run ∈ db.runs, above ∈ from_run := by
    rcases in_other with old | rfl
    · exact ⟨other, old, in_above⟩
    · rcases (inside above).mp in_above with node | ⟨tombstone, _, rfl⟩
      · exact ⟨imm.nodes, in_runs, node⟩
      · exact absurd (same_key ▸ user) (not_userKey_tombstoneEntry tombstone)
  obtain ⟨from_run, in_from, above_held⟩ := above_source
  obtain ⟨version, present, facts⟩ :=
    housed.closed old in_old from_run in_from entry old_held above above_held same_key same_seq
      below
  exact ⟨version, carried version present, facts⟩

end

theorem mem_tables_of_level0 {later : Database} {other : SSTable}
    (levels_eq : later.levels = Function.update db.levels 0 (db.levels 0 ++ [table])) :
    other ∈ later.tables ↔ other ∈ db.tables ∨ other = table := by
  simp only [mem_tables, levels_eq, mem_update_append, mem_singleton]
  constructor
  · rintro ⟨level, bound, old | ⟨_, new⟩⟩
    · exact .inl ⟨level, bound, old⟩
    · exact .inr new
  · rintro (⟨level, bound, member⟩ | rfl)
    · exact ⟨level, bound, .inl member⟩
    · exact ⟨0, by decide, .inr ⟨rfl, rfl⟩⟩

theorem mem_tables_written (sorter : StdSort internalKeyLess) (imm : MemTable) (other : SSTable) :
    other ∈ tables { db.writeLevel0Table sorter imm with flushing := true } ↔ other ∈ db.tables ∨
      other = TableBuilder.build db.options db.nextFileId (flushEntries sorter imm) :=
  mem_tables_of_level0 rfl

/-- The first half of a flush installs a table with what the immutable memtable holds. -/
theorem Housed.exchanges_flushWrite (housed : Housed db) (flushed : Flushed visible db)
    (sorter : StdSort internalKeyLess) : Exchanges visible db (db.flushWrite sorter) := by
  rcases db.flushWrite_cases sorter with same | ⟨imm, rotated, written⟩
  · rw [same]
    exact housed.exchanges_refl flushed
  rw [written]
  have entries_eq := TableBuilder.entries_build db.options db.nextFileId (flushEntries sorter imm)
  have table_cases := db.mem_tables_written sorter imm
  have runs_eq : runs { db.writeLevel0Table sorter imm with flushing := true } =
      db.runs ∪ {flushEntries sorter imm} := by
    ext _
    constructor
    · rintro (active | rotated_run | ⟨other, member, rfl⟩)
      · exact .inl (.inl active)
      · exact .inl (.inr (.inl rotated_run))
      · rcases (table_cases other).mp member with old | rfl
        · exact .inl (.inr (.inr ⟨other, old, rfl⟩))
        · exact .inr entries_eq
    · rintro ((active | rotated_run | ⟨other, old, rfl⟩) | rfl)
      · exact .inl active
      · exact .inr (.inl rotated_run)
      · exact .inr (.inr ⟨other, (table_cases other).mpr (.inl old), rfl⟩)
      · exact .inr (.inr ⟨_, (table_cases _).mpr (.inr rfl), entries_eq.symm⟩)
  have inside := housed.mem_flushEntries_imm rotated sorter
  constructor
  · exact ⟨rfl, rfl, .inl rfl, rfl, rfl, rfl⟩
  · intro other member
    rcases (table_cases other).mp member with old | rfl
    · exact housed.wellFormed other old
    · exact housed.wellFormed_flush rotated
  · intro level low high
    have deeper : (db.writeLevel0Table sorter imm).levels level = db.levels level :=
      Function.update_of_ne (ne_of_gt low) _ _
    exact deeper.symm ▸ housed.level level low high
  · rw [runs_eq]
    exact housed.tieClosed_flush rotated
  · intro other member entry held
    rcases (table_cases other).mp member with old | rfl
    · exact housed.stored_cases old held
    · rw [entries_eq] at held
      rcases (inside entry).mp held with node | ⟨tombstone, known, rfl⟩
      · exact .inl (mem_points_of_imm rotated (housed.immKeys imm rotated entry node) node)
      · exact .inr ⟨tombstone, housed.immTombstones imm rotated known, rfl⟩
  · intro dropped
    exact absurd (rotated.symm.trans dropped) nofun
  · rintro entry ⟨user, run, member, held⟩ seen
    exact ⟨entry, ⟨user, run, runs_eq ▸ .inl member, held⟩, rfl, le_refl _, seen⟩
  · intro _ other other_eq entry held seen
    obtain rfl : imm = other := some.inj (rotated.symm.trans other_eq)
    refine ⟨_, (table_cases _).mpr (.inr rfl), entry, ?_, rfl, le_refl _, seen⟩
    rw [entries_eq]
    exact (inside entry).mpr (.inl held)
  · exact fun other old entry held seen =>
      ⟨other, (table_cases other).mpr (.inl old), entry, held, rfl, le_refl _, seen⟩

/-- The second half of a flush drops a memtable whose versions are in the tables. -/
theorem Housed.exchanges_flushRelease (housed : Housed db) (flushed : Flushed visible db) :
    Exchanges visible db db.flushRelease := by
  unfold Database.flushRelease
  split
  · rename_i finished
    constructor
    · refine ⟨rfl, rfl, .inr rfl, rfl, rfl, ?_⟩
      split <;> rfl
    · exact housed.wellFormed
    · exact housed.level
    · apply housed.closed.subset
      rintro _ (rfl | ⟨_, impossible, _⟩ | present)
      · exact .inl rfl
      · cases impossible
      · exact .inr (.inr present)
    · exact fun _ present _ inside => housed.stored_cases present inside
    · exact fun _ => rfl
    · rintro entry ⟨user, _, rfl | ⟨imm, rotated, rfl⟩ | ⟨_, present, rfl⟩, inside⟩ seen
      · exact ⟨entry, mem_points_of_mem user inside, rfl, le_refl _, seen⟩
      · obtain ⟨_, present, newer, held, same, at_least⟩ :=
          flushed finished imm rotated entry inside seen
        exact ⟨newer, mem_points_of_table present (same ▸ user) held, same, at_least⟩
      · exact ⟨entry, mem_points_of_table present user inside, rfl, le_refl _, seen⟩
    · nofun
    · exact fun table present entry inside seen =>
        ⟨table, present, entry, inside, rfl, le_refl _, seen⟩
  · exact housed.exchanges_refl flushed

end Database

end LightKV
