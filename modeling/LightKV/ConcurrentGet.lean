import LightKV.ConcurrentWrites
import LightKV.SnapshotView

/-!
# A read among concurrent steps

`Get` takes a shared lock after it has sampled the counter, and then loads the two memtables
one after the other. One writer claims numbers and inserts, a rotation stores the immutable
memtable before it stores the new active one, and the background thread publishes tables,
clears the immutable memtable and installs rounds. Publishing and installing wait for the
lock; the rest does not.

Under the lock nothing can be missed: the memtable pointers are loaded in the opposite order
of the stores, and a memtable is cleared only when its table has been published. Between the
sample and the lock, however, a round may drop the version that the sample sees in favour of
one that it does not see, and then the key is not found. If no round does that to the key,
the answer is that of the map at some moment between the begin of the read and its end.
-/

namespace LightKV

open Versions Levels Runs List Option BatchOp Database

/-! ## The reader -/

/-- A memtable that the reader has loaded: it is still the active one, to which the writer
may add, or it was rotated out and does not change any more. -/
inductive Handle where
  | active
  | frozen (mem : MemTable)

/-- What a loaded memtable holds. -/
def Handle.contents (db : Database) : Handle → MemTable
  | .active => db.mem
  | .frozen mem => mem

/-- How far `Get` has come. -/
inductive Reader where
  | idle
  /-- `last_seq_` is loaded. -/
  | sampled (snapshot : Nat)
  /-- `rw_mutex_` is held, shared. -/
  | locked (snapshot : Nat)
  | loadedMem (snapshot : Nat) (mem : Handle)
  | loadedImm (snapshot : Nat) (mem : Handle) (imm : Option MemTable)
  /-- The first memtable does not have the key. -/
  | passedMem (snapshot : Nat) (imm : Option MemTable)
  /-- The loop over level 0, with the tables that are left. -/
  | level0 (snapshot : Nat) (files : List SSTable) (best : Option Entry)
  /-- The levels behind level 0. -/
  | deeper (snapshot : Nat) (best : Option Entry)
  | done (answer : Except Status Bytes)

namespace Reader

/-- The phases under the lock. -/
def holdsLock : Reader → Bool
  | .idle | .sampled _ | .done _ => false
  | _ => true

/-- The snapshot of a reader that is on its way. -/
def snapshot? : Reader → Option Nat
  | .idle | .done _ => none
  | .sampled snapshot | .locked snapshot | .loadedMem snapshot _ | .loadedImm snapshot _ _
  | .passedMem snapshot _ | .level0 snapshot _ _ | .deeper snapshot _ => some snapshot

/-- What a finished reader returns. -/
def answer? : Reader → Option (Except Status Bytes)
  | .done answer => some answer
  | _ => none

/-- The sample of a reader that waits for the lock. -/
def sample? : Reader → Option Nat
  | .sampled snapshot => some snapshot
  | _ => none

/-- The new active memtable is stored: a handle of the old one keeps the old one. -/
def rotate (db : Database) : Reader → Reader
  | .loadedMem snapshot .active => .loadedMem snapshot (.frozen db.mem)
  | .loadedImm snapshot .active imm => .loadedImm snapshot (.frozen db.mem) imm
  | reader => reader

/-- The next step of `Get`. While a rotation is between its two stores, `imm_` points to the
memtable that is still the active one. -/
def advance (db : Database) (rotating : Bool) (key : Bytes) : Reader → Reader
  | .idle => .sampled db.lastSeq
  | .sampled snapshot => .locked snapshot
  | .locked snapshot => .loadedMem snapshot .active
  | .loadedMem snapshot mem =>
      .loadedImm snapshot mem (if rotating then some db.mem else db.imm)
  | .loadedImm snapshot mem imm =>
      match db.readMem key snapshot (mem.contents db) with
      | some answer => .done answer
      | none => .passedMem snapshot imm
  | .passedMem snapshot imm =>
      match imm.bind (db.readMem key snapshot) with
      | some answer => .done answer
      | none => .level0 snapshot (db.levels 0).reverse none
  | .level0 snapshot [] best => .deeper snapshot best
  | .level0 snapshot (table :: files) best =>
      let best := consider key snapshot best table
      if best.any fun entry => decide (entry.seq = db.lastSeq) then .deeper snapshot best
      else .level0 snapshot files best
  | .deeper snapshot best =>
      match (List.range' 1 (numLevels - 1)).foldl
          (fun best level => searchLevel key snapshot (db.levels level) best) best with
      | none => .done (.error (.notFound ""))
      | some best =>
          if best.type = .deletion then .done (.error (.notFound ""))
          else .done (db.answerValue key snapshot best.value best.seq)
  | .done answer => .done answer

/-- At most so many steps of a reader are left while level 0 stays as it is. -/
def left (db : Database) : Reader → Nat
  | .idle => (db.levels 0).length + 8
  | .sampled _ => (db.levels 0).length + 7
  | .locked _ => (db.levels 0).length + 6
  | .loadedMem _ _ => (db.levels 0).length + 5
  | .loadedImm _ _ _ => (db.levels 0).length + 4
  | .passedMem _ _ => (db.levels 0).length + 3
  | .level0 _ files _ => files.length + 2
  | .deeper _ _ => 1
  | .done _ => 0

theorem left_advance (db : Database) (rotating : Bool) (key : Bytes) (reader : Reader) :
    (reader.advance db rotating key).left db ≤ reader.left db - 1 := by
  fun_cases advance <;> simp [left]

end Reader

/-! ## The steps -/

/-- The background steps that wait for `rw_mutex_`. -/
def Maintenance.installs : Maintenance → Bool
  | .flushWrite | .level0Compaction | .levelCompaction _ => true
  | _ => false

/-- The database with one writer and one reader. `rotating` stands between the two stores of
a rotation; `calls` are the calls whose insertion is done, in order, and `begun` is how
many they were when the reader began. -/
structure Reading where
  db : Database
  rotating : Bool
  pending : Option Nat
  calls : List Write
  begun : Nat
  reader : Reader

/-- Who moves. -/
inductive ReadingEvent where
  /-- The writer claims a number. -/
  | claim
  /-- The writer inserts under the write lock. -/
  | write (call : Write)
  /-- The first store of a rotation. -/
  | rotateImm
  /-- The second store of a rotation, with the new log. -/
  | rotateMem
  | maintain (step : Maintenance)
  /-- The reader goes on. -/
  | read
  deriving DecidableEq, Repr

namespace Reading

/-- Nobody has moved on an empty directory. -/
def fresh (options : Options) : Reading := ⟨.fresh options, false, none, [], 0, .idle⟩

/-- One step. A rotation holds the write lock between its stores; publishing a table and
installing a round wait for the reader. -/
def step (sorter : StdSort internalKeyLess) (key : Bytes) (state : Reading) :
    ReadingEvent → Reading
  | .claim =>
      match state.pending with
      | none => { state with db := state.db.claim, pending := some state.db.lastSeq }
      | some _ => state
  | .write call =>
      match state.pending with
      | none => state
      | some seq =>
          if state.rotating then state
          else { state with
            db := state.db.writeCall seq call.call
            pending := none
            calls := state.calls ++ [call] }
  | .rotateImm => if state.db.imm.isSome then state else { state with rotating := true }
  | .rotateMem =>
      if state.rotating then
        { state with
          db := state.db.triggerFlush
          rotating := false
          reader := state.reader.rotate state.db }
      else state
  | .maintain step =>
      if step = .triggerFlush ∨ step.installs = true ∧ state.reader.holdsLock = true then state
      else { state with db := state.db.maintain sorter step }
  | .read =>
      { state with
        begun := match state.reader with
          | .idle => state.calls.length
          | _ => state.begun
        reader := state.reader.advance state.db state.rotating key }

/-- Between the sample and the lock no round merges versions of the key on both sides of the
sample. Besides, numbers have 56 bits, keys are user keys, values fit the value log, and
rounds are orderly. -/
def Allowed (key : Bytes) (state : Reading) : ReadingEvent → Prop
  | .claim => state.db.lastSeq < 2 ^ 56
  | .write call => UserKey call.key ∧
      LogFits state.db.options [call.op] state.db.vlog state.db.disk.vlogs
  | .maintain step => state.db.Orderly step ∧
      ∀ snapshot ∈ state.reader.sample?, state.db.UnsplitInputs snapshot key step
  | .rotateImm | .rotateMem | .read => True

instance (key : Bytes) (state : Reading) : DecidablePred (state.Allowed key) := by
  intro event
  unfold Allowed
  split <;> infer_instance

end Reading

/-! ## Calls and their answers -/

theorem Write.touches_op {call : Write} {key : Bytes} :
    call.op.touches key = decide (call.key = key) := by
  cases call <;> rfl

theorem lastTouch_take {calls : List Write} {key : Bytes} {index : Nat} {call : Write}
    (made : calls[index]? = some call) (on_key : call.key = key) {count : Nat}
    (before : index < count)
    (quiet : ∀ later, index < later → later < count → ∀ other, calls[later]? = some other →
      other.key ≠ key) :
    BatchOp.lastTouch ((calls.take count).map Write.op) key = some call.op := by
  induction count with
  | zero => exact absurd before (Nat.not_lt_zero _)
  | succ count ih =>
    rw [take_add_one, map_append, lastTouch_append]
    rcases Nat.lt_succ_iff_lt_or_eq.mp before with earlier | rfl
    · have rest := ih earlier fun later above below => quiet later above (Nat.lt_succ_of_lt below)
      cases next : calls[count]? with
      | none => exact rest
      | some other =>
        have apart := quiet count earlier (Nat.lt_succ_self _) other next
        rw [rest]
        simp [lastTouch, Write.touches_op, apart]
    · rw [made]
      simp [lastTouch, Write.touches_op, on_key]

theorem lastTouch_take_none {calls : List Write} {key : Bytes} {count : Nat}
    (quiet : ∀ index < count, ∀ other, calls[index]? = some other → other.key ≠ key) :
    BatchOp.lastTouch ((calls.take count).map Write.op) key = none := by
  induction count with
  | zero => rfl
  | succ count ih =>
    rw [take_add_one, map_append, lastTouch_append,
      ih fun index below => quiet index (Nat.lt_succ_of_lt below)]
    cases next : calls[count]? with
    | none => rfl
    | some other =>
      have apart := quiet count (Nat.lt_succ_self _) other next
      simp [lastTouch, Write.touches_op, apart]

namespace Database

variable {db : Database} {calls : List Write} {key : Bytes} {begun snapshot : Nat}

/-- A version was made by the call of its number. -/
def Made (db : Database) (calls : List Write) (entry : Entry) : Prop :=
  ∃ call form, calls[entry.seq]? = some call ∧
    Prepared db.vlog db.disk.vlogs call.op form ∧ form.point entry.seq = some entry

/-- A version that may answer: no call on the key in front of the read has a higher number. -/
def Recent (db : Database) (calls : List Write) (key : Bytes) (begun : Nat) (entry : Entry) :
    Prop :=
  db.Made calls entry ∧
    ∀ index < begun, ∀ call, calls[index]? = some call → call.key = key → index ≤ entry.seq

theorem Made.key_eq {entry : Entry} {call : Write} (made : db.Made calls entry)
    (at_number : calls[entry.seq]? = some call) : call.key = entry.key := by
  obtain ⟨_, _, listed, prepared, point⟩ := made
  rw [listed, some.injEq] at at_number
  subst at_number
  have touched := touches_of_point point
  rw [prepared.touches_eq, Write.touches_op, decide_eq_true_eq] at touched
  exact touched

/-- What such a version answers is the answer of the map at a moment behind the begin. -/
theorem Recent.answer {entry : Entry} (recent : db.Recent calls key begun entry)
    (same : entry.key = key) (pointsOnly : db.rangeTombstones = []) (bound : begun ≤ calls.length) :
    ∃ count, begun ≤ count ∧ count ≤ calls.length ∧
      db.resolveAt snapshot entry =
        (Store.empty.applyAll ((calls.take count).map Write.op)).answer key := by
  obtain ⟨⟨call, form, made, prepared, point⟩, latest⟩ := recent
  have on_key : call.key = key := (Made.key_eq ⟨call, form, made, prepared, point⟩ made).trans same
  have inside : entry.seq < calls.length := (List.getElem?_eq_some_iff.mp made).1
  refine ⟨max begun (entry.seq + 1), le_max_left _ _, max_le bound inside, ?_⟩
  have decided := lastTouch_take made on_key (lt_of_lt_of_le (Nat.lt_succ_self _)
    (le_max_right begun (entry.seq + 1))) (by
      intro later above _ other listed on_key
      rcases lt_or_ge later begun with early | _
      · exact absurd (latest later early other listed on_key) (Nat.not_le_of_lt above)
      · omega)
  rw [Store.answer_applyAll, Store.answerAfter, decided, resolveAt, answerValue, pointsOnly]
  cases call with
  | put _ _ =>
    cases prepared with
    | value _ _ _ _ reads =>
      rw [← some.inj point]
      exact reads
  | delete _ =>
    cases prepared
    rw [← some.inj point]
    rfl

/-- Without a call on the key in front of the read the map does not have it there. -/
theorem answer_of_quiet
    (quiet : ∀ index < begun, ∀ other, calls[index]? = some other → other.key ≠ key) :
    (Store.empty.applyAll ((calls.take begun).map Write.op)).answer key =
      .error (.notFound "") := by
  rw [Store.answer_applyAll, Store.answerAfter, lastTouch_take_none quiet]
  rfl

end Database

/-! ## What the reader relies on -/

/-- Of every call on the key in front of the read there is a version that is at least as
new. -/
def Reaches (calls : List Write) (key : Bytes) (begun : Nat) (entries : Set Entry) : Prop :=
  ∀ index < begun, ∀ call, calls[index]? = some call → call.key = key →
    ∃ newer ∈ entries, newer.key = key ∧ index ≤ newer.seq

namespace Database

/-- The versions in the tables that a snapshot sees. -/
def tablesSeen (db : Database) (snapshot : Nat) : Set Entry :=
  {entry | (∃ table ∈ db.tables, entry ∈ table.entries) ∧ entry.seq ≤ snapshot}

/-- What a memtable finds may answer. -/
structure Tops (db : Database) (calls : List Write) (key : Bytes) (begun snapshot : Nat)
    (mem : MemTable) : Prop where
  pointsOnly : mem.rangeTombstones = []
  recent : ∀ entry, mem.seen key snapshot = some entry → db.Recent calls key begun entry

/-- What a loaded immutable memtable finds may answer, and what it misses is in the tables. -/
structure Behind (db : Database) (calls : List Write) (key : Bytes) (begun snapshot : Nat)
    (imm : Option MemTable) : Prop where
  tops : ∀ mem, imm = some mem → db.Tops calls key begun snapshot mem
  rest : (imm.bind fun mem => mem.seen key snapshot) = none →
    Reaches calls key begun (db.tablesSeen snapshot)

/-- What the sample sees. -/
structure View (db : Database) (calls : List Write) (key : Bytes) (begun snapshot : Nat) :
    Prop where
  viewed : db.Viewed snapshot key
  reaches : Reaches calls key begun (db.seen snapshot)

end Database

/-- What the reader relies on, phase by phase. -/
def Reader.Relies (db : Database) (calls : List Write) (key : Bytes) (begun : Nat) :
    Reader → Prop
  | .idle => True
  | .sampled snapshot | .locked snapshot => db.View calls key begun snapshot
  | .loadedMem snapshot mem => db.View calls key begun snapshot ∧
      ∀ old, mem = .frozen old → db.imm = some old ∧ db.flushing = false ∧
        db.Behind calls key begun snapshot (some old)
  | .loadedImm snapshot mem imm => db.View calls key begun snapshot ∧
      (∀ old, mem = .frozen old → db.Tops calls key begun snapshot old) ∧
      ((mem.contents db).seen key snapshot = none → db.Behind calls key begun snapshot imm)
  | .passedMem snapshot imm => db.View calls key begun snapshot ∧
      db.Behind calls key begun snapshot imm
  | .level0 snapshot files best => db.View calls key begun snapshot ∧
      Reaches calls key begun (db.tablesSeen snapshot) ∧
      ∃ front, front ++ files = (db.levels 0).reverse ∧ Leads snapshot front key best
  | .deeper snapshot best => db.View calls key begun snapshot ∧
      Reaches calls key begun (db.tablesSeen snapshot) ∧
      Leads snapshot (db.levels 0).reverse key best
  | .done answer => ∃ count, begun ≤ count ∧ count ≤ calls.length ∧
      answer = (Store.empty.applyAll ((calls.take count).map Write.op)).answer key

namespace Reading

open Database Reader

variable {state later : Reading} {key : Bytes} {snapshot : Nat}

/-- What holds of the database and its writer at every moment. -/
structure Held (state : Reading) : Prop where
  consistent : state.db.Consistent
  numbered : state.db.Numbered
  unmixed : state.db.Unmixed
  pointsOnly : state.db.rangeTombstones = []
  made : ∀ entry ∈ state.db.points, state.db.Made state.calls entry
  kept : ∀ index call, state.calls[index]? = some call →
    ∃ newer ∈ state.db.points, newer.key = call.key ∧ index ≤ newer.seq
  pending : ∀ seq, state.pending = some seq →
    seq = state.calls.length ∧ state.db.lastSeq = seq + 1
  counter : state.pending = none → state.db.lastSeq = state.calls.length
  begun : state.begun ≤ state.calls.length
  rotating : state.rotating = true → state.db.imm = none

/-! ## The steps of the reader -/

section

variable (view : state.db.View state.calls key state.begun snapshot)
include view

theorem recent_of_view (held : Held state)
    (newest : Newest Entry.key Entry.rank (state.db.seen snapshot) key entry) :
    state.db.Recent state.calls key state.begun entry := by
  refine ⟨held.made entry newest.1.1, ?_⟩
  intro index below call made on_key
  obtain ⟨newer, inside, same, at_least⟩ := view.reaches index below call made on_key
  exact le_trans at_least (Entry.seq_le_of_rank_le (newest.2.2 newer inside same))

theorem tops_mem (held : Held state) :
    state.db.Tops state.calls key state.begun snapshot state.db.mem where
  pointsOnly := subset_nil.mp (held.pointsOnly ▸ held.consistent.toReadable.memTombstones)
  recent := fun entry found => recent_of_view view held (view.viewed.memFirst entry found)

/-- What neither memtable has is in the tables. -/
theorem reaches_tables (unseen : state.db.mem.seen key snapshot = none)
    (behind : (state.db.imm.bind fun imm => imm.seen key snapshot) = none) :
    Reaches state.calls key state.begun (state.db.tablesSeen snapshot) := by
  intro index below call made on_key
  obtain ⟨newer, ⟨⟨_, _, member, inside⟩, seen⟩, same, at_least⟩ :=
    view.reaches index below call made on_key
  rcases member with rfl | ⟨_, rotated, rfl⟩ | ⟨table, present, rfl⟩
  · exact absurd (MemTable.unseen_iff.mp unseen newer inside same) (Nat.not_lt_of_le seen)
  · rw [rotated] at behind
    exact absurd (MemTable.unseen_iff.mp behind newer inside same) (Nat.not_lt_of_le seen)
  · exact ⟨newer, ⟨⟨table, present, inside⟩, seen⟩, same, at_least⟩

/-- What the active memtable misses is in the immutable one or in the tables. -/
theorem behind_imm (held : Held state) (unseen : state.db.mem.seen key snapshot = none) :
    state.db.Behind state.calls key state.begun snapshot state.db.imm where
  tops := fun imm rotated =>
    { pointsOnly := subset_nil.mp
        (held.pointsOnly ▸ held.consistent.toReadable.immTombstones imm rotated)
      recent := fun entry found =>
        recent_of_view view held (view.viewed.immFirst imm rotated unseen entry found) }
  rest := reaches_tables view unseen

end

/-- What a version that may answer resolves to is an answer of the read. -/
theorem Held.done (held : Held state) (recent : state.db.Recent state.calls key state.begun entry)
    (same : entry.key = key) (snapshot : Nat) :
    Relies state.db state.calls key state.begun (.done (state.db.resolveAt snapshot entry)) :=
  recent.answer same held.pointsOnly held.begun

/-- A memtable that is searched answers, or it does not have the key. -/
theorem Held.search (held : Held state) {mem : MemTable}
    (tops : state.db.Tops state.calls key state.begun snapshot mem) :
    (∃ answer, state.db.readMem key snapshot mem = some answer ∧
        Relies state.db state.calls key state.begun (.done answer)) ∨
      state.db.readMem key snapshot mem = none ∧ mem.seen key snapshot = none := by
  have registered : mem.rangeTombstones ⊆ state.db.rangeTombstones := by
    rw [tops.pointsOnly]
    exact nil_subset _
  rw [state.db.readMem_eq registered]
  cases found : mem.seen key snapshot with
  | none => exact .inr ⟨rfl, rfl⟩
  | some entry =>
    exact .inl ⟨_, rfl, held.done (tops.recent entry found) (MemTable.mem_of_seen found).2.1
      snapshot⟩

/-- The search of the tables answers. -/
theorem relies_finish (view : state.db.View state.calls key state.begun snapshot)
    (held : Held state)
    (reaches : Reaches state.calls key state.begun (state.db.tablesSeen snapshot))
    (leads : Leads snapshot (state.db.levels 0).reverse key best) (rotating : Bool) :
    Relies state.db state.calls key state.begun
      (Reader.advance state.db rotating key (.deeper snapshot best)) := by
  have housed := held.consistent.toHoused
  have all := (view.viewed.searchable housed).leads_deeper leads
  simp only [Reader.advance]
  cases found : (range' 1 (numLevels - 1)).foldl
      (fun best level => searchLevel key snapshot (state.db.levels level) best) best with
  | none =>
    rw [found] at all
    refine ⟨state.begun, le_refl _, held.begun, (answer_of_quiet ?_).symm⟩
    intro index below other made on_key
    obtain ⟨newer, ⟨⟨table, present, inside⟩, seen⟩, same, _⟩ :=
      reaches index below other made on_key
    exact absurd (all table present newer inside same) (Nat.not_lt_of_le seen)
  | some entry =>
    rw [found] at all
    have highest := newest_of_leads all (housed.closed.subset fun _ member => .inr (.inr member))
    obtain ⟨⟨_, present, ⟨inside, _⟩, same, _⟩, _⟩ := all
    have point : entry ∈ state.db.points :=
      mem_points_of_table present (same ▸ view.viewed.user) inside
    have recent : state.db.Recent state.calls key state.begun entry := by
      refine ⟨held.made entry point, ?_⟩
      intro index below call made on_key
      obtain ⟨newer, ⟨⟨other, in_tables, held⟩, seen⟩, newer_key, at_least⟩ :=
        reaches index below call made on_key
      exact le_trans at_least
        (Entry.seq_le_of_rank_le (highest other in_tables newer held newer_key seen))
    have answer := held.done recent same snapshot
    rw [resolveAt, same] at answer
    dsimp only
    split
    · rename_i deleted
      rwa [if_pos deleted] at answer
    · rename_i value
      rwa [if_neg value] at answer

/-- The live counter does not end the loop over level 0. -/
theorem Held.unfinished (held : Held state) {tables : List SSTable}
    (leads : Leads snapshot tables key best) (present : ∀ table ∈ tables, table ∈ state.db.tables) :
    (best.any fun entry => decide (entry.seq = state.db.lastSeq)) = false := by
  cases best with
  | none => rfl
  | some entry =>
    obtain ⟨⟨table, member, newest⟩, _⟩ := leads
    have bound := held.consistent.toHoused.older table.entries
      (.inr (.inr ⟨table, present table member, rfl⟩)) entry newest.1.1
    simpa using ne_of_lt bound

/-- Every step of the reader establishes what the next one relies on. -/
theorem relies_read (held : Held state)
    (relies : Relies state.db state.calls key state.begun state.reader) (user : UserKey key) :
    Relies (state.step sorter key .read).db (state.step sorter key .read).calls key
      (state.step sorter key .read).begun (state.step sorter key .read).reader := by
  cases phase : state.reader with
  | idle =>
    simp only [step, phase]
    refine ⟨held.consistent.viewed (le_refl _) user, ?_⟩
    intro index _ call made on_key
    obtain ⟨newer, point, same, at_least⟩ := held.kept index call made
    refine ⟨newer, ?_, same.trans on_key, at_least⟩
    rw [seen_eq_points held.consistent.toHoused.older (le_refl _)]
    exact point
  | sampled _ =>
    simp only [step, phase]
    rw [phase] at relies
    exact ⟨relies.viewed, relies.reaches⟩
  | locked _ =>
    simp only [step, phase]
    rw [phase] at relies
    exact ⟨⟨relies.viewed, relies.reaches⟩, nofun⟩
  | loadedMem _ mem =>
    simp only [step, phase, Reader.advance]
    rw [phase] at relies
    obtain ⟨view, frozen⟩ := relies
    cases mem with
    | active =>
      refine ⟨view, nofun, fun unseen => ?_⟩
      split
      · -- Between the stores of a rotation both pointers lead to one memtable.
        rename_i rotating
        have free := held.rotating rotating
        refine ⟨fun _ same => some.inj same ▸ tops_mem view held, fun _ => ?_⟩
        exact reaches_tables view unseen (by rw [free]; rfl)
      · exact behind_imm view held unseen
    | frozen old =>
      obtain ⟨imm_eq, _, behind⟩ := frozen old rfl
      have still : state.rotating = false := by
        by_contra rotating
        have free := held.rotating (by simpa using rotating)
        rw [imm_eq] at free
        cases free
      rw [still, imm_eq]
      refine ⟨view, fun _ same => ?_, fun _ => behind⟩
      cases same
      exact behind.tops old rfl
  | loadedImm snapshot mem _ =>
    simp only [step, phase, Reader.advance]
    rw [phase] at relies
    obtain ⟨view, frozen, behind⟩ := relies
    have tops : state.db.Tops state.calls key state.begun snapshot (mem.contents state.db) := by
      cases mem with
      | active => exact tops_mem view held
      | frozen old => exact frozen old rfl
    rcases held.search tops with ⟨_, found, done⟩ | ⟨missed, unseen⟩
    · rw [found]
      exact done
    · rw [missed]
      exact ⟨view, behind unseen⟩
  | passedMem snapshot imm =>
    simp only [step, phase, Reader.advance]
    rw [phase] at relies
    obtain ⟨view, behind⟩ := relies
    have nothing : Leads snapshot [] key none := by simp [Leads]
    cases imm with
    | none => exact ⟨view, behind.rest rfl, [], rfl, nothing⟩
    | some mem =>
      rw [bind_some]
      rcases held.search (behind.tops mem rfl) with ⟨_, found, done⟩ | ⟨missed, unseen⟩
      · rw [found]
        exact done
      · rw [missed]
        exact ⟨view, behind.rest unseen, [], rfl, nothing⟩
  | level0 _ files _ =>
    rw [phase] at relies
    obtain ⟨view, reaches, front, split, leads⟩ := relies
    cases files with
    | nil =>
      simp only [step, phase]
      rw [append_nil] at split
      exact ⟨⟨view.viewed, view.reaches⟩, reaches, split ▸ leads⟩
    | cons table _ =>
      simp only [step, phase, Reader.advance]
      have present : ∀ other ∈ front ++ [table], other ∈ state.db.tables := by
        intro _ member
        refine mem_tables.mpr ⟨0, by decide, mem_reverse.mp (split ▸ ?_)⟩
        rw [append_cons]
        exact mem_append_left _ member
      have next := leads_consider leads (held.consistent.toHoused.wellFormed table
        (present table (by simp)))
      rw [held.unfinished next present]
      exact ⟨view, reaches, front ++ [table], (append_cons ..).symm.trans split, next⟩
  | deeper _ _ =>
    rw [phase] at relies
    obtain ⟨view, reaches, leads⟩ := relies
    have finished := relies_finish view held reaches leads state.rotating
    simp only [step, phase]
    exact finished
  | done _ =>
    simp only [step, phase]
    rw [phase] at relies
    exact relies

end Reading

end LightKV
