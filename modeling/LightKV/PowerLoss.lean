import LightKV.MapRefinement
import LightKV.Restart
import LightKV.SyncedWrites

/-!
# A power failure

A power failure leaves the bytes that a completed sync of their own file covers: of each log
at least the synced records, the tables and the manifest, which a flush syncs, and the
value-log files that are closed. The value-log file that is being written is never synced by
a write: the record of a synchronous call may survive while the value it points to does not.

If the value of a call is in its record, or in a value-log file that is closed, then the next
opening finds it, unless a later write of the key is found.
-/

namespace LightKV

open Versions Levels Runs Option MemTable Database
open List hiding count

/-! ## What is left -/

/-- The logs of a directory, each cut to a number of records. -/
def Disk.cutWals (disk : Disk) (count : Bytes → Nat) : List WalFile :=
  disk.wals.map fun file => { file with records := file.records.take (count file.name) }

/-- The directory with cut logs and other value-log files. -/
def Disk.cut (disk : Disk) (count : Bytes → Nat) (vlogs : List VLogFile) : Disk :=
  { disk with
    wals := disk.cutWals count
    vlogs := vlogs
    distinct := by
      have names : (disk.cutWals count).map WalFile.name = disk.wals.map WalFile.name := by
        rw [Disk.cutWals, List.map_map]
        rfl
      rw [names]
      exact disk.distinct }

/-- The value-log files that are closed; `VLogManager::Append` syncs a file when it closes it. -/
def Database.sealedVLogs (db : Database) : List VLogFile :=
  db.disk.vlogs.filter fun file => decide (file.id ≠ db.vlog.activeId)

/-- A directory that a power failure leaves. -/
structure Synced.PowerLoss (state : Synced) (lost : Disk) : Prop where
  wals : ∃ count, lost.wals = state.db.disk.cutWals count ∧
    state.group.durable state.group.walGen ≤ count state.db.walPath ∧
    ∀ file, state.group.immWal = some file →
      state.group.durable file ≤ count state.db.immWalPath
  manifest : lost.manifest = state.db.disk.manifest
  tables : ∀ fileId table, state.db.disk.table? fileId = some table →
    lost.table? fileId = some table
  zero : lost.table? 0 = none
  vlogs : LogExtends state.db.sealedVLogs lost.vlogs

namespace Database

variable {db : Database} {active waiting : List WALRecord} {lost : Disk}

/-- The records that are replayed from cut logs. -/
theorem Journal.replayed_cut (journal : Journal db active waiting)
    (wals : lost.wals = db.disk.cutWals count) :
    (db.imm = none ∧ lost.logged = active.take (count db.walPath)) ∨
      db.imm.isSome = true ∧ (db.immWalPath < db.walPath ∧ lost.logged =
          waiting.take (count db.immWalPath) ++ active.take (count db.walPath) ∨
        db.walPath < db.immWalPath ∧ lost.logged =
          active.take (count db.walPath) ++ waiting.take (count db.immWalPath)) := by
  -- The cut logs are those of a database with shorter logs.
  have cut : Journal
      { db with disk := { db.disk with wals := lost.wals, distinct := lost.distinct } }
      (active.take (count db.walPath)) (waiting.take (count db.immWalPath)) := by
    refine ⟨fun _ => ?_, journal.walPath, journal.immWalPath, fun record member => ?_⟩
    · dsimp only
      rw [wals, Disk.cutWals, List.mem_map]
      constructor
      · rintro ⟨⟨whole, present, rfl⟩, named⟩
        rcases (journal.files whole).mp ⟨present, named⟩ with rfl | ⟨pending, rfl⟩
        · exact .inl rfl
        · exact .inr ⟨pending, rfl⟩
      rintro (rfl | ⟨pending, rfl⟩)
      · obtain ⟨present, named⟩ := (journal.files ⟨db.walPath, active⟩).mpr (.inl rfl)
        exact ⟨⟨_, present, rfl⟩, named⟩
      · obtain ⟨present, named⟩ :=
          (journal.files ⟨db.immWalPath, waiting⟩).mpr (.inr ⟨pending, rfl⟩)
        exact ⟨⟨_, present, rfl⟩, named⟩
    · refine journal.claimed record ?_
      exact ((take_sublist _ _).append (take_sublist _ _)).subset member
  exact cut.replayed_cases rfl

/-- A directory that keeps tables and manifest opens with the levels as they were. -/
theorem Archived.metadata_of_kept (archived : Archived db)
    (manifest : lost.manifest = db.disk.manifest)
    (tables : ∀ fileId table, db.disk.table? fileId = some table →
      lost.table? fileId = some table) (zero : lost.table? 0 = none) :
    ∃ found, lost.metadata = .ok (db.levels, found) ∧
      ∀ level, ∀ table ∈ db.levels level, ∀ entry ∈ table.entries, entry.seq < found.lastSeq := by
  have killed : Killed db { lost with
      wals := db.disk.wals, vlogs := db.disk.vlogs, distinct := db.disk.distinct } :=
    ⟨rfl, manifest, tables, zero, LogExtends.refl _⟩
  obtain ⟨found, loaded, _, _, _, _, _, older⟩ := archived.metadata killed
  exact ⟨found, loaded, older⟩

/-- The reopened database answers with the version of the key that was logged last, or else
from the tables. -/
theorem get_openedWith (options : Options) (lost : Disk) (levels : Nat → List SSTable)
    (manifest : Manifest) (key : Bytes) :
    (openedWith options lost levels manifest).get key =
      match (ofKey Entry.key key (loggedPoints lost.logged)).getLast? with
      | some entry => (openedWith options lost levels manifest).resolve entry
      | none => (openedWith options lost levels manifest).readTables key
          (openedWith options lost levels manifest).lastSeq := by
  generalize again_def : openedWith options lost levels manifest = again
  have mem_eq : again.mem = new.replay lost.logged := by rw [← again_def]; rfl
  have registered : again.mem.rangeTombstones ⊆ again.rangeTombstones := by
    rw [mem_eq, rangeTombstones_replay, ← again_def]
    exact subset_append_left _ _
  have imm_eq : again.imm = none := by rw [← again_def]; rfl
  have visible : ∀ entry ∈ again.mem.nodes, entry.seq ≤ again.lastSeq := by
    intro _ inside
    rw [mem_eq, mem_nodes_replay] at inside
    rcases inside with logged | none
    · obtain ⟨_, member, point⟩ := mem_flatMap.mp logged
      rw [WALRecord.seq_of_mem_points point, ← again_def]
      exact le_trans (le_of_lt (seq_lt_nextSeq member)) (le_max_right _ _)
    · cases none
  rw [get, getAt_eq again registered (by rw [imm_eq]; nofun),
    if_neg (lt_irrefl 0), readAt, seen_eq_head _ _ visible, mem_eq,
    versions_replay_new, head?_reverse]
  cases (ofKey Entry.key key (loggedPoints lost.logged)).getLast? with
  | some _ => rfl
  | none => rw [imm_eq]; rfl

end Database

/-- The record that logged a version of a key last. -/
theorem exists_last_logged
    (last : (ofKey Entry.key key (loggedPoints records)).getLast? = some entry) :
    ∃ front record back, records = front ++ record :: back ∧
      (ofKey Entry.key key record.points).getLast? = some entry ∧
      ∀ other ∈ back, ofKey Entry.key key other.points = [] := by
  rw [loggedPoints, ofKey, filter_flatMap, getLast?_flatMap, findSome?_eq_some_iff] at last
  obtain ⟨back, record, front, split, found, absent⟩ := last
  refine ⟨front.reverse, record, back.reverse, ?_, found, fun other member => ?_⟩
  · rw [← reverse_reverse records, split]
    simp
  · exact getLast?_eq_none_iff.mp (absent other (mem_reverse.mp member))

/-! ## What is found -/

/-- A database has a version of the key, or a tombstone over it, with a number. -/
def Database.Shows (db : Database) (key : Bytes) (seq : Nat) : Prop :=
  (∃ entry ∈ db.points, entry.key = key ∧ entry.seq = seq) ∨
    ∃ tombstone ∈ db.rangeTombstones, tombstone.spans key = true ∧ tombstone.seq = seq

namespace Synced

open Database

/-- The later of two writes: it has the higher number or entered behind the other one. -/
def Supersedes (state : Synced) (seq later : Nat) : Prop :=
  later ∈ state.clients.made.map Prod.fst ∧
    (seq < later ∨ [seq, later].Sublist (state.clients.made.map Prod.fst).reverse)

/-- The database has a write of the key that is later than the one with the number. -/
def Replaced (state : Synced) (again : Database) (key : Bytes) (seq : Nat) : Prop :=
  ∃ later, state.Supersedes seq later ∧ again.Shows key later

/-- The versions that the write with the number left of the key read as the value. -/
def Reproduces (state : Synced) (again : Database) (key : Bytes) (seq : Nat)
    (value : Bytes) : Prop :=
  ∀ entry ∈ state.db.points, entry.key = key → entry.seq = seq → entry.type = .value →
    again.resolve entry = .ok value ∨ state.Replaced again key seq

variable {state : Synced} {ledger : Ledger} {lost : Disk}

section

variable (follows : Follows state ledger)
include follows

/-- The numbers in the order of entry: those whose log was dropped, then the logs. -/
theorem Follows.numbers :
    (state.clients.made.map Prod.fst).reverse = (ledger.dropped.map Prod.fst).reverse ++
      (ledger.waiting ++ ledger.active).map WALRecord.seq := by
  have numbers : ∀ {writes : List (Nat × List BatchOp)} {records : List WALRecord},
      List.Forall₂ (Logs state.db) writes records →
        records.map WALRecord.seq = writes.map Prod.fst := by
    intro _ _ logs
    induction logs with
    | nil => rfl
    | cons here _ ih => rw [map_cons, map_cons, ih, here.1]
  have logged : (ledger.waiting ++ ledger.active).map WALRecord.seq =
      (ledger.middle.reverse ++ ledger.recent.reverse).map Prod.fst := by
    rw [map_append, map_append, numbers follows.written.middle, numbers follows.written.recent]
  rw [logged, follows.written.made_eq]
  simp

/-- A record of the logs has its write. -/
theorem Follows.exists_write (member : record ∈ ledger.waiting ++ ledger.active) :
    ∃ ops, (record.seq, ops) ∈ state.clients.made ∧
      List.Forall₂ (Prepared state.db.vlog state.db.disk.vlogs) ops record.ops := by
  rw [follows.written.made_eq]
  rcases mem_append.mp member with waiting | active
  · obtain ⟨⟨_, ops⟩, inside, same, prepared⟩ :=
      exists_of_forall₂ follows.written.middle.flip waiting
    refine ⟨ops, mem_append_right _ (mem_append_left _ ?_), prepared⟩
    exact same ▸ mem_reverse.mp inside
  · obtain ⟨⟨_, ops⟩, inside, same, prepared⟩ :=
      exists_of_forall₂ follows.written.recent.flip active
    exact ⟨ops, mem_append_left _ (same ▸ mem_reverse.mp inside), prepared⟩

theorem Follows.ops_eq (made : (seq, ops) ∈ state.clients.made)
    (also : (seq, other) ∈ state.clients.made) : other = ops :=
  (Prod.mk.inj (inj_on_of_nodup_map follows.sound.unique also made rfl)).2

theorem Follows.mem_points (member : record ∈ ledger.waiting ++ ledger.active)
    (point : entry ∈ record.points) : entry ∈ state.db.points := by
  rcases mem_append.mp member with waiting | active
  · cases pending : state.db.imm with
    | none =>
      rw [follows.written.idle pending] at waiting
      cases waiting
    | some imm =>
      have node : entry ∈ imm.nodes := by
        rw [follows.written.imm imm pending, mem_nodes_replay]
        exact .inl (mem_flatMap.mpr ⟨record, waiting, point⟩)
      exact mem_points_of_imm pending (follows.sound.housed.immKeys imm pending entry node) node
  · have node : entry ∈ state.db.mem.nodes := by
      rw [follows.written.mem, mem_nodes_replay]
      exact .inl (mem_flatMap.mpr ⟨record, active, point⟩)
    exact mem_points_of_mem (follows.sound.housed.memKeys entry node) node

/-- The record of a synchronous call that has returned is in the synced part of its log, or
the log was dropped. -/
theorem Follows.survives (returned : (state.group.writer seq).phase = .returned)
    {count : Bytes → Nat} (active : state.group.durable state.group.walGen ≤ count state.db.walPath)
    (waiting : ∀ file, state.group.immWal = some file → state.group.durable file ≤ count
      state.db.immWalPath) :
    (∃ record ∈ ledger.waiting.take (count state.db.immWalPath) ++
        ledger.active.take (count state.db.walPath), record.seq = seq) ∨
      seq ∈ ledger.dropped.map Prod.fst := by
  have synced : (state.group.writer seq).walIndex ≤
      state.group.durable (state.group.writer seq).file := by
    have sound := follows.tracked.inv.sound seq
    unfold GroupCommit.Sound at sound
    rw [returned] at sound
    exact sound.2
  have inside : ∀ {log : List WALRecord} {bound : Nat},
      RecordAt log (state.group.writer seq).walIndex seq →
      state.group.durable (state.group.writer seq).file ≤ bound →
        ∃ record ∈ log.take bound, record.seq = seq := by
    rintro log bound ⟨index, record, _, found, same⟩ _
    have still : (log.take bound)[index]? = some record := by
      rw [getElem?_take_of_lt (by omega)]
      exact found
    exact ⟨record, mem_of_getElem? still, same⟩
  rcases follows.tracked.located seq (by rw [returned]; rfl) with
    ⟨file, at_index⟩ | ⟨file, at_index⟩ | gone
  · have covered : state.group.durable (state.group.writer seq).file ≤ count state.db.walPath := by
      rw [file]
      exact active
    obtain ⟨record, member, same⟩ := inside at_index covered
    exact .inl ⟨record, mem_append_right _ member, same⟩
  · obtain ⟨record, member, same⟩ := inside at_index (waiting _ file)
    exact .inl ⟨record, mem_append_left _ member, same⟩
  · exact .inr gone

/-- What the cut logs have of a key is replayed in the order of entry, if they are replayed in
their order or only one of them has the key. -/
theorem Follows.ofKey_replayed (wals : lost.wals = state.db.disk.cutWals count)
    (inOrder : ∀ imm, state.db.imm = some imm → state.db.walPath < state.db.immWalPath →
      state.db.mem.versions key = [] ∨ imm.versions key = []) :
    ofKey Entry.key key (loggedPoints lost.logged) =
        ofKey Entry.key key (loggedPoints (ledger.waiting.take (count state.db.immWalPath) ++
          ledger.active.take (count state.db.walPath))) ∧
      ∀ record, record ∈ lost.logged ↔
        record ∈ ledger.waiting.take (count state.db.immWalPath) ++
          ledger.active.take (count state.db.walPath) := by
  have absent : ∀ {log : List WALRecord} (bound : Nat),
      (new.replay log).versions key = [] →
        ofKey Entry.key key (loggedPoints (log.take bound)) = [] := by
    intro log _ none
    rw [versions_replay_new, reverse_eq_nil_iff] at none
    exact sublist_nil.mp (none ▸ ((take_sublist _ log).flatMap _).filter _)
  rcases follows.written.journal.replayed_cut wals with
    ⟨none, replayed_eq⟩ | ⟨pending, ⟨_, replayed_eq⟩ | ⟨reversed, replayed_eq⟩⟩
  · rw [replayed_eq, follows.written.idle none, take_nil]
    exact ⟨rfl, fun _ => Iff.rfl⟩
  · rw [replayed_eq]
    exact ⟨rfl, fun _ => Iff.rfl⟩
  obtain ⟨imm, present⟩ := isSome_iff_exists.mp pending
  rw [replayed_eq]
  refine ⟨?_, fun _ => by rw [mem_append, mem_append, or_comm]⟩
  simp only [loggedPoints, flatMap_append, ofKey_append]
  change ofKey Entry.key key (loggedPoints _) ++ ofKey Entry.key key (loggedPoints _) =
    ofKey Entry.key key (loggedPoints _) ++ ofKey Entry.key key (loggedPoints _)
  rcases inOrder imm present reversed with none | none
  · rw [follows.written.mem] at none
    rw [absent _ none, nil_append, append_nil]
  · rw [follows.written.imm imm present] at none
    rw [absent _ none, nil_append, append_nil]

/-- The tombstones of the reopened database belong to writes of the run. -/
theorem Follows.tombstone_made {again : Database} (opened : again.rangeTombstones =
      loggedTombstones lost.logged ++ loadTombstones state.db.levels)
    (logs : ∀ record ∈ lost.logged, record ∈ ledger.waiting ++ ledger.active)
    (member : tombstone ∈ again.rangeTombstones) :
    tombstone.seq ∈ state.clients.made.map Prod.fst := by
  rw [opened] at member
  rcases mem_append.mp member with logged | loaded
  · obtain ⟨record, listed, held⟩ := mem_flatMap.mp logged
    obtain ⟨_, made, _⟩ := follows.exists_write (logs record listed)
    rw [WALRecord.seq_of_mem_tombstones held]
    exact mem_map.mpr ⟨_, made, rfl⟩
  obtain ⟨table, present, stored⟩ := (mem_loadTombstones follows.sound.housed).mp loaded
  rcases follows.sound.housed.stored table present _ stored with user | ⟨known, registered, same⟩
  · exact absurd user (not_userKey_tombstoneEntry tombstone)
  · obtain ⟨_, made, _⟩ := follows.written.ranges known registered
    have same_seq : tombstone.seq = known.seq := congrArg Entry.seq same
    exact mem_map.mpr ⟨_, made, same_seq.symm⟩

end

/-! ## The value of a synchronous call -/

/-- Closed value-log files are among all of them. -/
theorem logExtends_sealedVLogs (db : Database) : LogExtends db.sealedVLogs db.disk.vlogs := by
  intro id file found
  have inside := mem_filter.mp (mem_of_find?_eq_some found)
  have named : file.id = id := by simpa using find?_some found
  have closed : id ≠ db.vlog.activeId := named ▸ (by simpa using inside.2)
  refine ⟨file, ?_, prefix_refl _⟩
  rw [vlogFile?, sealedVLogs, find?_filter] at found
  rw [vlogFile?, ← found]
  congr 1
  funext other
  by_cases same : other.id = id
  · simp [same, closed]
  · simp [same]

section Value

variable {seq : Nat} {ops : List BatchOp} {key value : Bytes}

section

variable (follows : Follows state ledger)
include follows

section

variable (made : (seq, ops) ∈ state.clients.made)
include made

theorem Follows.unwrap_eq (single : ∀ other, BatchOp.value key other ∈ ops → other = value)
    (point : entry ∈ state.db.points) (same_key : entry.key = key) (same_seq : entry.seq = seq)
    (stored : entry.type = .value) :
    state.db.vlog.unwrap state.db.disk.vlogs entry.value = .ok value := by
  obtain ⟨other, also, _, inside, _, prepared, form_point⟩ := follows.written.source entry point
  have ops_eq : other = ops := follows.ops_eq made (same_seq ▸ also)
  subst ops_eq
  cases prepared with
  | value _ put _ _ reads =>
    have entry_eq := some.inj form_point
    rw [← entry_eq] at same_key ⊢
    subst same_key
    rw [← single put inside]
    exact reads
  | deletion _ =>
    rw [← some.inj form_point] at stored
    cases stored
  | rangeDeletion _ _ => cases form_point

/-- The record of the call has the value as its last version of the key. -/
theorem Follows.logged_value (put : BatchOp.lastTouch ops key = some (.value key value))
    (member : record ∈ ledger.waiting ++ ledger.active) (same : record.seq = seq) :
    ∃ entry, (ofKey Entry.key key record.points).getLast? = some entry ∧
      entry.seq = seq ∧ entry.type = .value := by
  obtain ⟨other, also, prepared⟩ := follows.exists_write member
  have ops_eq : other = ops := follows.ops_eq made (same ▸ also)
  subst ops_eq
  rcases Prepared.lastTouch prepared key with
    ⟨untouched, _⟩ | ⟨_, _, touched, form_touched, related⟩
  · rw [untouched] at put
    cases put
  · rw [put, some.injEq] at touched
    subst touched
    cases related with
    | value _ _ _ => exact ⟨_, BatchOp.getLast_points record.seq form_touched rfl, same, rfl⟩

/-- The reopened database answers a value of the call as the call put it, unless a tombstone
of a later write covers it. -/
theorem Follows.resolve_value (single : ∀ other, BatchOp.value key other ∈ ops → other = value)
    (closed : ∀ entry ∈ state.db.points, entry.key = key → entry.seq = seq → Resident
      state.db.sealedVLogs entry.value) (vlogs : LogExtends state.db.sealedVLogs again.disk.vlogs)
    (tombstones : ∀ tombstone ∈ again.rangeTombstones, tombstone.seq ∈ state.clients.made.map
      Prod.fst) (point : entry ∈ state.db.points) (same_key : entry.key = key)
    (same_seq : entry.seq = seq) (stored : entry.type = .value) :
    again.resolve entry = .ok value ∨ state.Replaced again key seq := by
  have reads : again.vlog.unwrap again.disk.vlogs entry.value = .ok value := by
    have resident := closed entry point same_key same_seq
    rw [VLogManager.unwrap_extends state.db.vlog again.vlog resident vlogs,
      ← VLogManager.unwrap_extends state.db.vlog state.db.vlog resident
        (logExtends_sealedVLogs state.db)]
    exact follows.unwrap_eq made single point same_key same_seq stored
  have live : ¬ entry.type = .deletion := by
    rw [stored]
    decide
  rw [resolve, resolveAt, if_neg live, answerValue]
  by_cases hidden : covered again.rangeTombstones entry.key entry.seq again.lastSeq = true
  · right
    obtain ⟨tombstone, member, hides⟩ := (covered_iff _ _ _ _).mp hidden
    rw [same_key, same_seq] at hides
    obtain ⟨above, _, spans⟩ := (RangeTombstone.hides_iff _ _ _ _).mp hides
    exact ⟨tombstone.seq, ⟨tombstones tombstone member, .inl above⟩,
      .inr ⟨tombstone, member, spans, rfl⟩⟩
  · left
    rw [if_neg hidden, reads]

end

/-- A record that is logged behind the call, or whose log the call's was dropped for, is of a
later write. -/
theorem Follows.supersedes (sublist : kept.Sublist (ledger.waiting ++ ledger.active))
    (split : kept = front ++ record :: back)
    (earlier : seq ∈ front.map WALRecord.seq ∨ seq ∈ ledger.dropped.map Prod.fst) :
    state.Supersedes seq record.seq := by
  have member : record ∈ ledger.waiting ++ ledger.active :=
    sublist.subset (by rw [split]; exact mem_append_right _ mem_cons_self)
  obtain ⟨_, made, _⟩ := follows.exists_write member
  refine ⟨mem_map.mpr ⟨_, made, rfl⟩, .inr ?_⟩
  rw [follows.numbers]
  rcases earlier with logged | dropped
  · have pair : [seq, record.seq].Sublist (kept.map WALRecord.seq) := by
      rw [split, map_append]
      exact (singleton_sublist.mpr logged).append (cons_sublist_cons.mpr (nil_sublist _))
    exact (pair.trans (sublist.map _)).trans (sublist_append_right _ _)
  · exact (singleton_sublist.mpr (mem_reverse.mpr dropped)).append
      (singleton_sublist.mpr (mem_map.mpr ⟨record, member, rfl⟩))

/-- The tables of the reopened database can be searched for every key. -/
theorem Follows.searchable (levels : again.levels = state.db.levels)
    (older : ∀ level, ∀ table ∈ state.db.levels level, ∀ entry ∈ table.entries, entry.seq <
      again.lastSeq) : Searchable again again.lastSeq key ∧ TieClosed (runsOf again.tables) := by
  have housed := follows.sound.housed
  have tables : again.tables = state.db.tables := by rw [tables, levels, tables]
  have below : ∀ table ∈ again.tables, ∀ entry ∈ table.entries, entry.seq < again.lastSeq := by
    intro table present
    obtain ⟨level, _, member⟩ := mem_tables.mp present
    exact older level table (levels ▸ member)
  refine ⟨⟨below, ?_, ?_, ?_⟩, ?_⟩
  · rw [tables]
    exact housed.wellFormed
  · rw [levels]
    exact housed.level
  · intro level _ bound _ _ second inside _ _ _
    obtain ⟨table, present, held⟩ := mem_versionsOf.mp inside
    exact le_of_lt (below table (mem_tables.mpr ⟨level, bound, present⟩) second held)
  · rw [tables]
    exact housed.closed.subset fun _ member => .inr (.inr member)

section

variable (made : (seq, ops) ∈ state.clients.made)
  (put : BatchOp.lastTouch ops key = some (.value key value))
  (answers : state.Reproduces again key seq value)
include made put answers

/-- What the last logged version of the key answers. -/
theorem Follows.found_logged (sublist : kept.Sublist (ledger.waiting ++ ledger.active))
    (replayed : ∀ record ∈ kept, ∀ entry ∈ record.points, entry ∈ again.mem.nodes)
    (survives : (∃ record ∈ kept, record.seq = seq) ∨ seq ∈ ledger.dropped.map Prod.fst)
    (last : (ofKey Entry.key key (loggedPoints kept)).getLast? = some entry) :
    again.resolve entry = .ok value ∨ state.Replaced again key seq := by
  obtain ⟨_, record, _, split, in_record, absent⟩ := exists_last_logged last
  have here : record ∈ kept := by
    rw [split]
    exact mem_append_right _ mem_cons_self
  obtain ⟨inside, same_key⟩ := mem_ofKey.mp (mem_of_getLast? in_record)
  have point := follows.mem_points (sublist.subset here) inside
  by_cases same : record.seq = seq
  · obtain ⟨_, is_last, same_seq, is_value⟩ :=
      follows.logged_value made put (sublist.subset here) same
    rw [in_record, some.injEq] at is_last
    subst is_last
    exact answers entry point same_key same_seq is_value
  -- The call's own record is in front of this one, or in a log that was dropped.
  right
  refine ⟨record.seq, follows.supersedes sublist split ?_, .inl ⟨entry, ?_, same_key, ?_⟩⟩
  · rcases survives with ⟨own, member, own_seq⟩ | dropped
    · left
      rw [split] at member
      rcases mem_append.mp member with earlier | later
      · exact mem_map.mpr ⟨own, earlier, own_seq⟩
      rcases mem_cons.mp later with rfl | behind
      · exact absurd own_seq same
      have listed : own ∈ ledger.waiting ++ ledger.active :=
        sublist.subset (by rw [split]; exact member)
      obtain ⟨_, is_last, _⟩ := follows.logged_value made put listed own_seq
      rw [absent own behind] at is_last
      cases is_last
    · exact .inr dropped
  · exact mem_points_of_mem point.1 (replayed record here entry inside)
  · exact WALRecord.seq_of_mem_points inside

/-- What the tables answer when no log has the key. -/
theorem Follows.found_in_tables (levels : again.levels = state.db.levels)
    (older : ∀ level, ∀ table ∈ state.db.levels level, ∀ entry ∈ table.entries, entry.seq <
      again.lastSeq) (dropped : seq ∈ ledger.dropped.map Prod.fst) :
    again.readTables key again.lastSeq = .ok value ∨ state.Replaced again key seq := by
  have tables : again.tables = state.db.tables := by rw [tables, levels, tables]
  obtain ⟨⟨_, also⟩, listed, rfl⟩ := mem_map.mp dropped
  have ops_eq : also = ops := by
    refine follows.ops_eq made ?_
    rw [follows.written.made_eq]
    exact mem_append_right _ (mem_append_right _ listed)
  subst ops_eq
  obtain ⟨table, present, newer, held, newer_key, at_least⟩ :=
    follows.written.dropped _ listed _ (BatchOp.mem_of_lastTouch put).1 _ rfl
  have user : UserKey key := follows.written.users _ made _ (BatchOp.mem_of_lastTouch put).1 0 _ rfl
  obtain ⟨searchable, closed⟩ : Searchable again again.lastSeq key ∧
      TieClosed (runsOf again.tables) := follows.searchable levels older
  rw [← tables] at present
  rcases searchable.readTables_newest closed with ⟨best, newest, answer⟩ | ⟨absent, _⟩
  · obtain ⟨⟨⟨_, in_tables, inside⟩, _⟩, best_key, highest⟩ := newest
    rw [answer]
    have rank_le := le_trans at_least (highest newer
      ⟨⟨table, present, held⟩, le_of_lt (searchable.older table present newer held)⟩ newer_key)
    have point : best ∈ state.db.points :=
      mem_points_of_table (tables ▸ in_tables) (best_key ▸ user) inside
    rcases eq_or_lt_of_le (Entry.seq_le_of_rank_le rank_le) with same | above
    · exact answers best point best_key same.symm (Entry.value_of_rank_le same rfl rank_le)
    · right
      obtain ⟨_, other_made, _⟩ := follows.written.source best point
      exact ⟨best.seq, ⟨mem_map.mpr ⟨_, other_made, rfl⟩, .inl above⟩,
        .inl ⟨best, mem_points_of_table in_tables (best_key ▸ user) inside, best_key, rfl⟩⟩
  · have seen := searchable.older table present newer held
    exact absurd (absent table present newer held newer_key) (not_lt.mpr (le_of_lt seen))

end

end

end Value

/-- One synchronous put, with the step that ends its sync. -/
def onePut (endSync : SyncedEvent) : List SyncedEvent :=
  [.claim, .thread (.noteSyncRequest 0), .write 0 (.put [107] [49, 50]) true,
    .thread (.check 0), .thread (.capture 0), .thread (.beginSync 0), endSync,
    .thread (.publish 0), .thread (.notifyAll 0)]

/-- The state behind the put. -/
def afterPut (options : Options) (endSync : SyncedEvent) : Synced :=
  run (Synced.step insertionSorter) (fresh options) (onePut endSync)

/-- A cut of the logs that keeps the synced records is a power failure, if there is one log and no
value-log file is closed. -/
theorem powerLoss_cut (durable : state.group.durable state.group.walGen ≤ count)
    (none_waiting : state.group.immWal = none) (zero : state.db.disk.table? 0 = none)
    (none_closed : state.db.sealedVLogs = []) :
    PowerLoss state (state.db.disk.cut (fun _ => count) vlogs) := by
  refine ⟨⟨fun _ => count, rfl, durable, ?_⟩, rfl, fun _ _ found => found, zero, ?_⟩
  · rw [none_waiting]
    exact nofun
  · rw [none_closed]
    exact nofun

section OnePut

/-- Behind the put of an inline value. -/
abbrev afterInline : Synced := afterPut {} (.thread (.endSync 0))

theorem inline_afterInline : ∀ entry ∈ afterInline.db.points,
    Resident afterInline.db.sealedVLogs entry.value := by
  rintro _ ⟨_, _, source, inside⟩
  have mem_eq : afterInline.db.mem.nodes = [⟨[107], 0, .value, [0, 49, 50]⟩] := by decide +kernel
  have imm_none : afterInline.db.imm = none := by decide +kernel
  rcases source with rfl | ⟨_, rotated, _⟩ | ⟨_, present, _⟩
  · rw [mem_eq, mem_singleton] at inside
    subst inside
    exact nofun
  · exact absurd (imm_none.symm.trans rotated) nofun
  · cases present

/-- Only the record of the call survives, and no value-log file. -/
theorem powerLoss_afterInline :
    PowerLoss afterInline (afterInline.db.disk.cut (fun _ => 1) []) := by
  apply powerLoss_cut <;> decide +kernel

end OnePut

/-- Behind the put of a value that goes to the value log. -/
abbrev afterSeparated : Synced := afterPut { valueThreshold := 1 } (.thread (.endSync 0))

end Synced

end LightKV
