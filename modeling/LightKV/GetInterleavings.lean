import LightKV.ConcurrentGet

/-!
# Every interleaving of a read

What the reader relies on survives the steps of the others: a claim and an insertion only add
versions above those it has passed, the second store of a rotation leaves it with the memtable
it holds, and publishing, clearing and installing keep its view. So the invariant holds along
every run, and a finished read returns what the map had at some moment while it ran.
-/

namespace LightKV

open Versions Levels Runs List Option LogExtends Reading

/-! ## What the others leave in place -/

section Later

open Database

variable {db later : Database} {calls more : List Write} {key : Bytes} {begun snapshot : Nat}

/-- The value log only grows, and so do the calls. -/
structure Database.Carries (db later : Database) (calls more : List Write) (begun : Nat) :
    Prop where
  extended : LogExtends db.disk.vlogs later.disk.vlogs
  listed : ∀ (index : Nat) call, calls[index]? = some call → more[index]? = some call
  begun : begun ≤ calls.length

variable (carries : Carries db later calls more begun)
include carries

theorem Database.Carries.call_of_lt {index : Nat} (below : index < begun) {call : Write}
    (made : more[index]? = some call) : calls[index]? = some call := by
  have inside : index < calls.length := lt_of_lt_of_le below carries.begun
  have old := carries.listed index _ (getElem?_eq_getElem inside)
  rw [made] at old
  rw [old, getElem?_eq_getElem inside]

theorem Database.Made.mono (made : db.Made calls entry) : later.Made more entry := by
  obtain ⟨call, form, listed, prepared, point⟩ := made
  exact ⟨call, form, carries.listed _ _ listed, prepared.mono carries.extended, point⟩

theorem Database.Recent.mono (recent : db.Recent calls key begun entry) :
    later.Recent more key begun entry :=
  ⟨recent.1.mono carries, fun index below call made =>
    recent.2 index below call (carries.call_of_lt below made)⟩

theorem Database.Tops.mono {mem : MemTable} (tops : db.Tops calls key begun snapshot mem) :
    later.Tops more key begun snapshot mem :=
  ⟨tops.pointsOnly, fun entry found => (tops.recent entry found).mono carries⟩

theorem Reaches.mono (reaches : Reaches calls key begun entries)
    (newer : ∀ entry ∈ entries, entry.key = key → ∃ other ∈ others, other.key = key ∧ entry.seq ≤
      other.seq) : Reaches more key begun others := by
  intro index below call made on_key
  obtain ⟨entry, inside, same, at_least⟩ :=
    reaches index below call (carries.call_of_lt below made) on_key
  obtain ⟨other, present, other_key, higher⟩ := newer entry inside same
  exact ⟨other, present, other_key, le_trans at_least higher⟩

omit carries in
theorem Database.tablesSeen_congr (levels : later.levels = db.levels) :
    later.tablesSeen snapshot = db.tablesSeen snapshot := by
  unfold tablesSeen tables
  rw [levels]

theorem Database.Behind.mono {imm : Option MemTable}
    (behind : db.Behind calls key begun snapshot imm) (levels : later.levels = db.levels) :
    later.Behind more key begun snapshot imm where
  tops := fun mem same => (behind.tops mem same).mono carries
  rest := by
    intro unseen
    rw [tablesSeen_congr levels]
    exact (behind.rest unseen).mono carries fun entry inside same =>
      ⟨entry, inside, same, le_refl _⟩

/-- What the reader relies on stays if the others keep its view, and under the lock the
levels, an immutable memtable without a table, and what the active memtable has if the
reader holds that. -/
theorem Reader.Relies.keep {reader : Reader}
    (relies : reader.Relies db calls key begun)
    (view : ∀ snapshot ∈ reader.snapshot?, db.View calls key begun snapshot →
      later.View more key begun snapshot)
    (levels : reader.holdsLock = true → later.levels = db.levels)
    (unseen : ∀ snapshot loaded, reader = .loadedImm snapshot .active loaded →
      later.mem.seen key snapshot = none → db.mem.seen key snapshot = none)
    (imm : reader.holdsLock = true → db.flushing = false → ∀ old, db.imm = some old →
      later.imm = some old ∧ later.flushing = false) : reader.Relies later more key begun := by
  have tables : reader.holdsLock = true → ∀ snapshot,
      Reaches calls key begun (db.tablesSeen snapshot) →
        Reaches more key begun (later.tablesSeen snapshot) := by
    intro locked _ reaches
    rw [tablesSeen_congr (levels locked)]
    exact reaches.mono carries fun entry inside same => ⟨entry, inside, same, le_refl _⟩
  cases reader with
  | idle => trivial
  | sampled snapshot | locked snapshot => exact view snapshot rfl relies
  | loadedMem snapshot _ =>
    refine ⟨view snapshot rfl relies.1, fun old frozen => ?_⟩
    obtain ⟨imm_eq, idle, behind⟩ := relies.2 old frozen
    obtain ⟨later_imm, later_idle⟩ := imm rfl idle old imm_eq
    exact ⟨later_imm, later_idle, behind.mono carries (levels rfl)⟩
  | loadedImm snapshot mem loaded =>
    obtain ⟨before, tops, behind⟩ := relies
    refine ⟨view snapshot rfl before, fun old frozen => (tops old frozen).mono carries, ?_⟩
    intro missed
    refine (behind ?_).mono carries (levels rfl)
    cases mem with
    | active => exact unseen snapshot loaded rfl missed
    | frozen _ => exact missed
  | passedMem snapshot _ => exact ⟨view snapshot rfl relies.1, relies.2.mono carries (levels rfl)⟩
  | level0 snapshot _ _ | deeper snapshot _ =>
    obtain ⟨before, reaches, leads⟩ := relies
    exact ⟨view snapshot rfl before, tables rfl snapshot reaches, (levels rfl).symm ▸ leads⟩
  | done _ =>
    obtain ⟨count, from_begin, bound, answer_eq⟩ := relies
    have same : more.take count = calls.take count := by
      apply ext_getElem?
      intro index
      rw [getElem?_take, getElem?_take]
      split
      · rename_i below
        have inside : index < calls.length := lt_of_lt_of_le below bound
        rw [getElem?_eq_getElem inside]
        exact carries.listed index _ (getElem?_eq_getElem inside)
      · rfl
    refine ⟨count, from_begin, le_trans bound ?_, same ▸ answer_eq⟩
    by_contra shorter
    have inside : more.length < calls.length := Nat.lt_of_not_le shorter
    have listed := carries.listed _ _ (getElem?_eq_getElem inside)
    rw [getElem?_eq_none (le_refl _)] at listed
    cases listed

end Later

/-! ## The steps of the others -/

namespace Reading

open Database Reader

variable {state : Reading} {key : Bytes}

/-- What holds between the steps. -/
structure Invariant (key : Bytes) (state : Reading) : Prop where
  held : Held state
  relies : state.reader.Relies state.db state.calls key state.begun

theorem invariant_fresh {options : Options} : Invariant key (fresh options) where
  held :=
    { consistent := consistent_fresh options
      numbered := numbered_fresh options
      unmixed := refines_fresh.unmixed
      pointsOnly := rfl
      made := fun entry member => by
        change entry ∈ (Database.fresh options).points at member
        rw [points_fresh] at member
        exact absurd member (Set.notMem_empty entry)
      kept := nofun
      pending := nofun
      counter := fun _ => rfl
      begun := le_refl _
      rotating := nofun }
  relies := trivial

theorem Held.claim (held : Held state) (free : state.pending = none)
    (room : state.db.lastSeq < 2 ^ 56) :
    Held { state with db := state.db.claim, pending := some state.db.lastSeq } :=
  { held with
    consistent := (held.consistent.claim room).1
    numbered := held.numbered.congr rfl (le_refl _)
    pending := fun _ same => some.inj same ▸ ⟨held.counter free, rfl⟩
    counter := nofun }

theorem Invariant.claim (inv : Invariant key state) (free : state.pending = none)
    (room : state.db.lastSeq < 2 ^ 56) :
    Invariant key { state with db := state.db.claim, pending := some state.db.lastSeq } where
  held := inv.held.claim free room
  relies := inv.relies.keep
    (show Carries state.db state.db.claim _ _ _ from ⟨refl _, fun _ _ made => made, inv.held.begun⟩)
    (fun _ _ view => ⟨view.viewed.claim, view.reaches⟩) (fun _ => rfl)
    (fun _ _ _ unseen => unseen) (fun _ idle _ imm => ⟨imm, idle⟩)

/-- The numbers of all versions are below the number of the pending call. -/
theorem Held.seq_lt (held : Held state) (member : entry ∈ state.db.points) :
    entry.seq < state.calls.length := by
  obtain ⟨_, _, listed, _⟩ := held.made entry member
  exact (List.getElem?_eq_some_iff.mp listed).1

section Write

variable {seq : Nat} {call : Write} {log : VLogManager × List VLogFile} {record : WALRecord}

theorem Held.above (held : Held state) (pending : state.pending = some seq) :
    ∀ entry ∈ state.db.points, entry.key = call.key → entry.seq < seq := by
  intro _ member _
  rw [(held.pending seq pending).1]
  exact held.seq_lt member

theorem Held.committable (held : Held state) (pending : state.pending = some seq)
    (entering : Entering state.db seq call log record) :
    Committable (state.db.withVLog log) record :=
  entering.committable (held.above pending)
    (by rw [(held.pending seq pending).2]; exact Nat.lt_succ_self _)

theorem Held.carries_write (held : Held state) (entering : Entering state.db seq call log record) :
    Carries state.db (state.db.writeCall seq call.call) state.calls (state.calls ++ [call])
      state.begun where
  extended := by
    rw [entering.written]
    exact entering.extended
  listed := by
    intro _ _ made
    rw [getElem?_append_left (List.getElem?_eq_some_iff.mp made).1]
    exact made
  begun := held.begun

/-- The record of a call holds its point. -/
theorem exists_recorded (entering : Entering state.db seq call log record) :
    ∃ entry ∈ record.points, entry.key = call.key ∧ entry.seq = seq := by
  obtain ⟨_, point, client_key⟩ := call.exists_point record.seq
  obtain ⟨form, inside, related⟩ := Prepared.exists_form entering.prepared_op (mem_singleton_self _)
  obtain ⟨stored, stored_point, same_key, _⟩ := related.exists_point point
  exact ⟨stored, mem_filterMap.mpr ⟨form, inside, stored_point⟩,
    same_key.trans client_key, (BatchOp.seq_of_point stored_point).trans entering.seq_eq⟩

theorem Held.write (held : Held state) (pending : state.pending = some seq)
    (entering : Entering state.db seq call log record) :
    Held { state with
      db := state.db.writeCall seq call.call
      pending := none
      calls := state.calls ++ [call] } := by
  have committable := held.committable pending entering
  have carries := held.carries_write entering
  obtain ⟨number, counter⟩ := held.pending seq pending
  have points : ∀ entry, entry ∈ (state.db.writeCall seq call.call).points ↔
      entry ∈ record.points ∨ entry ∈ state.db.points := by
    intro _
    rw [entering.written]
    exact mem_points_commit committable.keys
  have consistent : (state.db.writeCall seq call.call).Consistent := by
    rw [entering.written]
    exact (held.consistent.withVLog entering.sound entering.extended).1.commit committable
  have last : (state.calls ++ [call])[seq]? = some call := by rw [number, getElem?_concat_length]
  refine
    { consistent := consistent
      numbered := ?_
      unmixed := entering.unmixed (held.above pending) held.unmixed
      pointsOnly := entering.rangeTombstones.trans held.pointsOnly
      made := ?_
      kept := ?_
      pending := nofun
      counter := fun _ => ?_
      begun := ?_
      rotating := ?_ }
  · refine held.numbered.congr ?_ ?_
    · rw [entering.written]
      rfl
    · rw [entering.written]
      exact le_refl _
  · intro entry member
    rcases (points entry).mp member with new | old
    · obtain ⟨form, inside, point⟩ := mem_filterMap.mp new
      obtain ⟨_, in_ops, related⟩ := Prepared.exists_op entering.prepared_op inside
      have number := (BatchOp.seq_of_point point).trans entering.seq_eq
      rw [mem_singleton.mp in_ops] at related
      refine ⟨call, form, number ▸ last, ?_, ?_⟩
      · rw [entering.written]
        exact related
      · rw [number, ← entering.seq_eq]
        exact point
    · exact (held.made entry old).mono carries
  · intro index other made
    rcases lt_or_ge index state.calls.length with inside | _
    · have before : state.calls[index]? = some other := by
        rwa [getElem?_append_left inside] at made
      obtain ⟨newer, old, same, at_least⟩ := held.kept index other before
      exact ⟨newer, (points newer).mpr (.inr old), same, at_least⟩
    have final : index = seq := by
      have bound := (List.getElem?_eq_some_iff.mp made).1
      rw [length_append, length_singleton] at bound
      omega
    rw [final, last, some.injEq] at made
    obtain ⟨entry, new, same, at_number⟩ := exists_recorded entering
    exact ⟨entry, (points entry).mpr (.inl new), made ▸ same, by rw [final, at_number]⟩
  · rw [entering.lastSeq, counter, number, length_append, length_singleton]
  · rw [length_append]
    exact Nat.le_add_right_of_le held.begun
  · intro rotating
    rw [entering.written]
    exact held.rotating rotating

theorem Invariant.write (inv : Invariant key state) (pending : state.pending = some seq)
    (entering : Entering state.db seq call log record) :
    Invariant key { state with
      db := state.db.writeCall seq call.call
      pending := none
      calls := state.calls ++ [call] } := by
  have committable := inv.held.committable pending entering
  have carries := inv.held.carries_write entering
  refine ⟨inv.held.write pending entering, inv.relies.keep carries ?_ ?_ ?_ ?_⟩
  · intro _ _ view
    have viewed := view.viewed.withVLog inv.held.consistent.toHoused entering.extended
    constructor
    · rw [entering.written]
      exact viewed.commit committable.keys fun _ => committable.settles key
    apply view.reaches.mono carries
    intro entry member same
    refine ⟨entry, ?_, same, le_refl _⟩
    rw [entering.written]
    exact (mem_seen_commit committable.keys).mpr (.inr member)
  · intro _
    rw [entering.written]
    rfl
  · intro snapshot _ _ unseen
    rw [entering.written] at unseen
    rcases lt_or_ge snapshot record.seq with above | below
    · rwa [unseen_commit above] at unseen
    · rw [seen_commit below, or_eq_none_iff] at unseen
      exact unseen.2
  · intro _ idle _ imm
    rw [entering.written]
    exact ⟨imm, idle⟩

end Write

section Background

variable {later : Database}

/-- Background work that keeps the versions, or newer ones, keeps what holds. -/
theorem Held.replace (held : Held state) (consistent : later.Consistent)
    (numbered : later.Numbered) (points : later.points ⊆ state.db.points)
    (newer : ∀ entry ∈ state.db.points, ∃ other ∈ later.points,
      other.key = entry.key ∧ entry.seq ≤ other.seq) (lastSeq : later.lastSeq = state.db.lastSeq)
    (rangeTombstones : later.rangeTombstones = state.db.rangeTombstones)
    (vlogs : later.disk.vlogs = state.db.disk.vlogs) {rotating : Bool} {reader : Reader}
    (free : rotating = true → later.imm = none) :
    Held { state with db := later, rotating := rotating, reader := reader } where
  consistent := consistent
  numbered := numbered
  unmixed := fun first in_first second in_second =>
    held.unmixed first (points in_first) second (points in_second)
  pointsOnly := rangeTombstones.trans held.pointsOnly
  made := fun entry member => (held.made entry (points member)).mono
    ⟨vlogs ▸ refl _, fun _ _ made => made, held.begun⟩
  kept := by
    intro index call made
    obtain ⟨entry, member, same, at_least⟩ := held.kept index call made
    obtain ⟨other, present, other_key, higher⟩ := newer entry member
    exact ⟨other, present, other_key.trans same, le_trans at_least higher⟩
  pending := fun seq pending => lastSeq.symm ▸ held.pending seq pending
  counter := fun free => lastSeq.trans (held.counter free)
  begun := held.begun
  rotating := free

/-- The second store of a rotation: a reader that holds the old memtable keeps it. -/
theorem Invariant.rotateMem (inv : Invariant key state) (rotating : state.rotating = true) :
    Invariant key { state with
      db := state.db.triggerFlush
      rotating := false
      reader := state.reader.rotate state.db } := by
  have held := inv.held
  have free := held.rotating rotating
  have rotated := rotated_triggerFlush free
  have maintains := held.consistent.rotate_maintains rotated
  have idle : state.db.triggerFlush.flushing = false :=
    rotated.flushing.trans (held.consistent.idle free)
  have carries : Carries state.db state.db.triggerFlush state.calls state.calls state.begun :=
    ⟨rotated.vlogs ▸ refl _, fun _ _ made => made, held.begun⟩
  have view : ∀ snapshot, state.db.View state.calls key state.begun snapshot →
      state.db.triggerFlush.View state.calls key state.begun snapshot := fun _ view =>
    ⟨view.viewed.rotate rotated held.consistent.toHoused, rotated.seen ▸ view.reaches⟩
  have keep : ∀ reader : Reader, reader.Relies state.db state.calls key state.begun →
      (∀ snapshot loaded, reader ≠ .loadedImm snapshot .active loaded) →
        reader.Relies state.db.triggerFlush state.calls key state.begun := by
    intro _ relies other
    refine relies.keep carries (fun snapshot _ => view snapshot) (fun _ => rotated.levels) ?_ ?_
    · exact fun snapshot loaded same => absurd same (other snapshot loaded)
    · intro _ _ _ imm
      rw [free] at imm
      cases imm
  have follow : ∀ reader : Reader, reader.Relies state.db state.calls key state.begun →
      (reader.rotate state.db).Relies state.db.triggerFlush state.calls key state.begun := by
    intro reader relies
    cases reader with
    | loadedMem snapshot mem =>
      cases mem with
      | active =>
        refine ⟨view snapshot relies.1, fun _ same => ?_⟩
        cases same
        refine ⟨rotated.imm, idle, fun _ same => ?_, fun unseen => ?_⟩
        · exact some.inj same ▸ (tops_mem relies.1 held).mono carries
        · rw [tablesSeen_congr rotated.levels]
          exact reaches_tables relies.1 unseen (by rw [free]; rfl)
      | frozen _ => exact keep _ relies nofun
    | loadedImm snapshot mem _ =>
      cases mem with
      | active =>
        refine ⟨view snapshot relies.1, fun _ same => ?_, fun unseen => ?_⟩
        · cases same
          exact (tops_mem relies.1 held).mono carries
        · exact (relies.2.2 unseen).mono carries rotated.levels
      | frozen _ => exact keep _ relies nofun
    | idle => trivial
    | sampled _ | locked _ | passedMem _ _
    | level0 _ _ _ | deeper _ _ | done _ => exact keep _ relies nofun
  refine ⟨held.replace maintains.consistent (held.numbered.congr rotated.levels ?_)
    maintains.points ?_ maintains.lastSeq maintains.rangeTombstones rotated.vlogs nofun,
    follow _ inv.relies⟩
  · unfold Database.triggerFlush
    split <;> exact le_refl _
  · exact fun entry member => ⟨entry, rotated.points.symm ▸ member, rfl, le_refl _⟩

variable {step : Maintenance}

/-- Steps that do not wait for the lock leave the levels and the active memtable alone, and
clear only a memtable whose table is published. -/
theorem maintain_unlocked (db : Database) (sorter : StdSort internalKeyLess)
    (background : step ≠ .triggerFlush) (unlocked : step.installs = false) :
    (db.maintain sorter step).levels = db.levels ∧ (db.maintain sorter step).mem = db.mem ∧
      (db.flushing = false → (db.maintain sorter step).imm = db.imm ∧
        (db.maintain sorter step).flushing = false) ∧ db.roundInputs step = [] := by
  cases step with
  | triggerFlush => exact absurd rfl background
  | flushRelease =>
    unfold Database.maintain Database.flushRelease
    dsimp only
    split
    · rename_i running
      refine ⟨rfl, rfl, fun idle => ?_, rfl⟩
      rw [idle] at running
      cases running
    · exact ⟨rfl, rfl, fun idle => ⟨rfl, idle⟩, rfl⟩
  | compactionError _ => exact ⟨rfl, rfl, fun idle => ⟨rfl, idle⟩, rfl⟩
  | flushWrite | level0Compaction | levelCompaction _ => cases unlocked

/-- The inputs of a background step are not split by the snapshot of a reader on its way:
by the condition while it waits for the lock, and afterwards as no round is installed. -/
theorem unsplitInputs_of_allowed (allowed : state.Allowed key (.maintain step))
    (background : step ≠ .triggerFlush)
    (unblocked : state.reader.holdsLock = true → step.installs = false)
    (sorter : StdSort internalKeyLess) :
    ∀ snapshot ∈ state.reader.snapshot?, state.db.UnsplitInputs snapshot key step := by
  intro snapshot _
  rcases Bool.eq_false_or_eq_true state.reader.holdsLock with locked | _
  · have empty := (maintain_unlocked state.db sorter background (unblocked locked)).2.2.2
    intro _ member
    rw [empty] at member
    cases member
  · refine allowed.2 snapshot ?_
    cases phase : state.reader <;> simp_all [Reader.holdsLock, Reader.snapshot?, Reader.sample?]

/-- A background step of another thread. -/
theorem Invariant.maintain (inv : Invariant key state)
    (allowed : state.Allowed key (.maintain step)) (background : step ≠ .triggerFlush)
    (unblocked : state.reader.holdsLock = true → step.installs = false) :
    Invariant key { state with db := state.db.maintain sorter step } := by
  have held := inv.held
  have housed := held.consistent.toHoused
  have turn := turn_maintain held.numbered allowed.1 sorter
  have untied := held.consistent.untiedInputs held.unmixed step
  have inputs := unsplitInputs_of_allowed allowed background unblocked sorter
  obtain ⟨maintains, numbered⟩ := held.consistent.maintain held.numbered allowed.1 untied sorter
  -- The step is no rotation, so it exchanges tables.
  have exchanges : Exchanges (fun _ => True) state.db (state.db.maintain sorter step) := by
    rcases housed.turn held.consistent.flushed_all turn (untied_roundInputs untied)
      (fun _ _ _ _ _ _ => trivial) with exchanges | ⟨rotation, _⟩
    · exact exchanges
    · exact absurd rotation background
  have carries : Carries state.db (state.db.maintain sorter step) state.calls state.calls
      state.begun := ⟨exchanges.front.vlogs ▸ refl _, fun _ _ made => made, held.begun⟩
  refine ⟨held.replace maintains.consistent numbered maintains.points ?_ maintains.lastSeq
    maintains.rangeTombstones exchanges.front.vlogs ?_, inv.relies.keep carries ?_ ?_ ?_ ?_⟩
  · intro entry member
    obtain ⟨newer, present, same, higher, _⟩ := exchanges.keeps entry member trivial
    exact ⟨newer, present, same, Entry.seq_le_of_rank_le higher⟩
  · intro rotating
    rcases exchanges.front.imm with same | cleared
    · exact same.trans (held.rotating rotating)
    · exact cleared
  · intro snapshot under_way view
    obtain ⟨viewed, kept⟩ := view.viewed.turn housed turn untied (inputs snapshot under_way)
    refine ⟨viewed, view.reaches.mono carries fun entry seen same => ?_⟩
    obtain ⟨newer, present, newer_key, higher⟩ := kept.newer entry seen same
    exact ⟨newer, present, newer_key, Entry.seq_le_of_rank_le higher⟩
  · exact fun locked => (maintain_unlocked state.db sorter background (unblocked locked)).1
  · intro _ _ phase unseen
    have unlocked := unblocked (by rw [phase]; rfl)
    rwa [(maintain_unlocked state.db sorter background unlocked).2.1] at unseen
  · intro locked idle _ imm
    obtain ⟨same, still⟩ :=
      (maintain_unlocked state.db sorter background (unblocked locked)).2.2.1 idle
    exact ⟨same.trans imm, still⟩

end Background

section Run

variable (sorter : StdSort internalKeyLess)

theorem Held.read (held : Held state) : Held (state.step sorter key .read) :=
  { held with
    begun := by
      simp only [step]
      split
      · exact le_refl _
      · exact held.begun }

variable (user : UserKey key)
include user

theorem Invariant.step (inv : Invariant key state) (allowed : state.Allowed key event) :
    Invariant key (state.step sorter key event) := by
  cases event with
  | claim =>
    simp only [Reading.step]
    cases pending : state.pending with
    | none => exact inv.claim pending allowed
    | some _ => exact inv
  | write _ =>
    simp only [Reading.step]
    cases pending : state.pending with
    | none => exact inv
    | some seq =>
      obtain ⟨_, _, entering⟩ := exists_entering inv.held.consistent.sound seq allowed.1 allowed.2
      dsimp only
      split
      · exact inv
      · exact inv.write pending entering
  | rotateImm =>
    simp only [Reading.step]
    split
    · exact inv
    · rename_i free
      have held := inv.held
      exact ⟨{ held with rotating := fun _ => by simpa using free }, inv.relies⟩
  | rotateMem =>
    simp only [Reading.step]
    split
    · rename_i rotating
      exact inv.rotateMem rotating
    · exact inv
  | maintain _ =>
    simp only [Reading.step]
    split
    · exact inv
    · rename_i moves
      rw [not_or, not_and] at moves
      exact inv.maintain allowed moves.1 fun locked =>
        Bool.eq_false_iff.mpr fun installs => moves.2 installs locked
  | read => exact ⟨inv.held.read sorter, relies_read inv.held inv.relies user⟩

end Run

/-- Enough steps of its own finish a reader, wherever it stands. -/
theorem read_finishes (state : Reading) (enough : state.reader.left state.db ≤ steps) :
    ((run (step sorter key) state (List.replicate steps .read)).reader.answer?).isSome := by
  induction steps generalizing state with
  | zero =>
    cases reader : state.reader <;> simp [reader, left] at enough
    simp [List.replicate, run, reader, answer?]
  | succ steps ih =>
    refine ih (state.step sorter key .read) ?_
    exact le_trans (left_advance state.db state.rotating key state.reader) (by omega)

/-- A whole `Put` of the writer. -/
def put (value : Bytes) : List ReadingEvent := [.claim, .write (.put [107] value)]

/-- A rotation, a flush and a round on level 0. -/
def cycle : List ReadingEvent :=
  [.rotateImm, .rotateMem, .maintain .flushWrite, .maintain .flushRelease,
    .maintain .level0Compaction]

/-- A round behind the sample has only what the reader sees, and the memtable is rotated
while the reader holds it. -/
def rotatedBetween : List ReadingEvent :=
  put [97] ++ [.read] ++ cycle ++ put [98] ++ [.read, .read, .rotateImm, .rotateMem] ++
    List.replicate 6 .read

/-- Between the sample and the lock the key is put twice more and a round keeps only the last
version. -/
def roundBetween : List ReadingEvent :=
  put [97] ++ [.read] ++ put [98] ++ put [99] ++ cycle ++ List.replicate 8 .read

/-- What the events of a reader of one key come to. -/
abbrev reading (events : List ReadingEvent) : Reading :=
  run (Reading.step insertionSorter [107]) (fresh eager) events

end Reading

end LightKV
