import Mathlib.Data.List.Find
import LightKV.ConcurrentWrites
import LightKV.ScanAgreement

/-!
# A counter that is one behind

The counter stands above every stored sequence number, and a call takes it as its number.
A database whose counter equals the highest stored number hands that number out again. Its
readers see everything all the same: `Get` and `Scan` include the counter itself. Background
steps do not look at the counter. The first call is another matter. If it touches a version
that has its number, a range deletion does not hide that version, and a merge cannot tell
the two apart. If it touches none, the database is from then on as any other.

So a database that is `Serving` a map, or would be with its counter raised by one, keeps
serving it.
-/

namespace LightKV

open Versions Levels Runs Option MergingIterator Store
open List hiding range

/-! ## Readers of a counter that is one behind -/

section Unseen

variable {limit : Nat}

section

variable {table : SSTable} (low : ∀ entry ∈ table.entries, entry.seq ≤ limit)
include low

/-- Above all versions, a higher snapshot changes nothing. -/
theorem SSTable.get_of_le : table.get key (limit + 1) = table.get key limit := by
  unfold SSTable.get
  split
  · rfl
  refine find?_congr ?_
  intro entry member
  have inside : entry ∈ table.entries :=
    (dropWhile_sublist _).mem ((takeWhile_sublist _).mem member)
  have bound := low entry inside
  rw [decide_eq_true bound, decide_eq_true (Nat.le_succ_of_le bound)]

theorem consider_of_le : consider key (limit + 1) best table = consider key limit best table := by
  unfold consider
  rw [SSTable.get_of_le low]

end

/-- The search through the levels does not see the counter either. -/
theorem searchLevels_of_le
    (low : ∀ level < numLevels, ∀ table ∈ levels level, ∀ entry ∈ table.entries,
      entry.seq ≤ limit) :
    searchLevels levels (limit + 1) key (limit + 1) = searchLevels levels limit key limit := by
  have front : searchLevel0 key (limit + 1) (limit + 1) (levels 0).reverse none =
      searchLevel0 key limit limit (levels 0).reverse none := by
    have low := fun table member => low 0 (by decide) table (mem_reverse.mp member)
    rw [searchLevel0_eq_foldl low, searchLevel0_eq_foldl fun table member entry inside =>
      Nat.le_succ_of_le (low table member entry inside)]
    exact foldl_ext _ _ _ fun _ table member => consider_of_le (low table member)
  unfold searchLevels
  rw [front]
  refine foldl_ext _ _ _ ?_
  intro _ level member
  have bound : level < numLevels := by
    have range := mem_range'_1.mp member
    omega
  unfold searchLevel
  split
  · rfl
  · rename_i file located
    split
    · rfl
    · exact consider_of_le (low level bound file (mem_of_getElem? located))

end Unseen

namespace Database

variable {db : Database}

/-- The numbers of versions and of registered tombstones do not exceed the counter. -/
structure Capped (db : Database) : Prop where
  versions : ∀ run ∈ db.runs, ∀ entry ∈ run, entry.seq ≤ db.lastSeq
  tombstones : ∀ tombstone ∈ db.rangeTombstones, tombstone.seq ≤ db.lastSeq

/-- A counter one behind still bounds every version. -/
theorem Consistent.capped_of_claim (claimed : Consistent db.claim) : Capped db where
  versions run member entry inside := Nat.le_of_lt_succ (claimed.older run member entry inside)
  tombstones tombstone member := Nat.le_of_lt_succ (claimed.pastTombstones tombstone member)

theorem Capped.tables (capped : Capped db) :
    ∀ table ∈ db.tables, ∀ entry ∈ table.entries, entry.seq ≤ db.lastSeq :=
  fun table member => capped.versions table.entries (.inr (.inr ⟨table, member, rfl⟩))

theorem Capped.covered_claim (capped : Capped db) :
    covered db.rangeTombstones key seq (db.lastSeq + 1) =
      covered db.rangeTombstones key seq db.lastSeq :=
  covered_congr (fun _ => Iff.rfl)
    (fun tombstone member => Nat.le_succ_of_le (capped.tombstones tombstone member))
    capped.tombstones key seq

/-- Raising the counter changes no answer of `Get`. -/
theorem Capped.get_claim (capped : Capped db)
    (registered : db.mem.rangeTombstones ⊆ db.rangeTombstones)
    (immRegistered : ∀ imm, db.imm = some imm → imm.rangeTombstones ⊆ db.rangeTombstones) :
    db.claim.get key = db.get key := by
  have answered : ∀ key stored seq, db.claim.answerValue key (db.lastSeq + 1) stored seq =
      db.answerValue key db.lastSeq stored seq := by
    intro key _ seq
    change (if covered db.rangeTombstones key seq (db.lastSeq + 1) = true then _ else _) = _
    rw [capped.covered_claim]
    rfl
  have resolved : db.claim.resolveAt (db.lastSeq + 1) = db.resolveAt db.lastSeq := by
    funext entry
    simp only [resolveAt, answered]
  have seen : ∀ mem : MemTable, mem.nodes ∈ db.runs →
      mem.seen key (db.lastSeq + 1) = mem.seen key db.lastSeq := by
    intro mem member
    rw [mem.seen_eq_head key (capped.versions _ member),
      mem.seen_eq_head key fun entry inside =>
        Nat.le_succ_of_le (capped.versions _ member entry inside)]
  have tables : db.claim.readTables key (db.lastSeq + 1) = db.readTables key db.lastSeq := by
    have found : searchLevels db.claim.levels db.claim.lastSeq key (db.lastSeq + 1) =
        searchLevels db.levels db.lastSeq key db.lastSeq :=
      searchLevels_of_le (fun level bound table member =>
        capped.tables table (mem_tables.mpr ⟨level, bound, member⟩))
    simp only [readTables, found, answered]
  unfold get
  rw [db.getAt_eq registered immRegistered, db.claim.getAt_eq registered immRegistered]
  change db.claim.readAt (db.lastSeq + 1) key = db.readAt db.lastSeq key
  unfold readAt
  rw [resolved, tables]
  have active : db.claim.mem.seen key (db.lastSeq + 1) = db.mem.seen key db.lastSeq :=
    seen db.mem (.inl rfl)
  have waiting : (db.claim.imm.bind fun imm => imm.seen key (db.lastSeq + 1)) =
      db.imm.bind fun imm => imm.seen key db.lastSeq := by
    change (db.imm.bind fun imm => imm.seen key (db.lastSeq + 1)) = _
    cases rotated : db.imm with
    | none => rfl
    | some imm => exact seen imm (.inr (.inl ⟨imm, rotated, rfl⟩))
  rw [active, waiting]

/-- Raising the counter changes no answer of `Scan`. -/
theorem Capped.scan_claim (capped : Capped db)
    (registered : ∀ mem ∈ db.memTables, mem.rangeTombstones ⊆ db.rangeTombstones)
    (sorted : ∀ source ∈ db.merger.sources, Sorted Entry.key Entry.seq source.entries) :
    db.claim.scan 0 keyPrefix limit = db.scan 0 keyPrefix limit := by
  have visible : ∀ key index, seenAt (db.lastSeq + 1) key db.merger.runs index =
      seenAt db.lastSeq key db.merger.runs index := by
    intro _ index
    unfold seenAt
    cases here : db.merger.runs[index]? with
    | none => rfl
    | some run =>
      have low := capped.versions run.versions (mem_runs_iff.mpr ⟨run, mem_of_getElem? here, rfl⟩)
      simp only [map_some, some.injEq, Prod.mk.injEq, true_and]
      refine filter_congr ?_
      intro entry inside
      rw [decide_eq_true (low entry inside), decide_eq_true (Nat.le_succ_of_le (low entry inside))]
  have covered_eq : ∀ key seq, covered db.merger.rangeTombstones key seq (db.lastSeq + 1) =
      covered db.merger.rangeTombstones key seq db.lastSeq := by
    have low : ∀ tombstone ∈ db.merger.rangeTombstones, tombstone.seq ≤ db.lastSeq := by
      intro tombstone member
      rcases mem_append.mp member with front | listed
      · obtain ⟨mem, inside, held⟩ := mem_flatMap.mp front
        exact capped.tombstones tombstone (registered mem inside held)
      · exact capped.tombstones tombstone listed
    exact covered_congr (fun _ => Iff.rfl)
      (fun tombstone member => Nat.le_succ_of_le (low tombstone member)) low
  have shown : ∀ entry, Shown (db.lastSeq + 1) db.merger.rangeTombstones db.merger.runs entry ↔
      Shown db.lastSeq db.merger.rangeTombstones db.merger.runs entry := by
    intro _
    simp only [Shown, Foremost, visible, covered_eq]
  have first := yields_seek db.lastSeq keyPrefix sorted (le_refl _)
  have second := yields_seek (db.lastSeq + 1) keyPrefix sorted (le_refl _)
  have walked : (walk (db.lastSeq + 1) db.merger.size
        (db.merger.seek keyPrefix (db.lastSeq + 1))).1 =
      (walk db.lastSeq db.merger.size (db.merger.seek keyPrefix db.lastSeq)).1 := by
    refine eq_of_increasing second.ascending first.ascending ?_
    intro _
    rw [second.members, first.members, shown]
  rw [scan_eq, scan_eq]
  change ((((walk (db.lastSeq + 1) db.merger.size
    (db.merger.seek keyPrefix (db.lastSeq + 1))).1.takeWhile _).take _).map _) = _
  rw [walked]
  rfl

/-! ## What readers and background steps look at -/

/-- The databases differ at most in manifest, logs and table files. -/
structure Alike (db other : Database) : Prop where
  options : other.options = db.options
  lastSeq : other.lastSeq = db.lastSeq
  nextFileId : other.nextFileId = db.nextFileId
  mem : other.mem = db.mem
  imm : other.imm = db.imm
  flushing : other.flushing = db.flushing
  levels : other.levels = db.levels
  rangeTombstones : other.rangeTombstones = db.rangeTombstones
  vlog : other.vlog = db.vlog
  vlogs : other.disk.vlogs = db.disk.vlogs

theorem Alike.refl : Alike db db := ⟨rfl, rfl, rfl, rfl, rfl, rfl, rfl, rfl, rfl, rfl⟩

section Alike

variable {other : Database}

section

variable (alike : Alike db other)
include alike

/-- The part of a database that readers look at. -/
theorem Alike.eq :
    other = { db with
      flushedSeq := other.flushedSeq
      manifest := other.manifest
      nextWalId := other.nextWalId
      walPath := other.walPath
      immWalPath := other.immWalPath
      disk := { other.disk with vlogs := db.disk.vlogs } } := by
  obtain ⟨_, _, _, _, _, _, _, _, _, _⟩ := alike
  cases other with
  | mk _ _ _ _ _ _ _ _ _ _ _ _ _ _ disk =>
    cases disk
    simp_all

theorem Alike.consistent (consistent : Consistent db) : Consistent other := by
  rw [alike.eq]
  exact { consistent with }

/-- Databases that differ in the counter alone answer alike. -/
theorem Alike.get_eq : other.get key = db.get key := by
  rw [alike.eq]
  rfl

theorem Alike.points_eq : other.points = db.points := by
  rw [alike.eq]
  rfl

end

end Alike

/-- The end of a round does not look at the counter. -/
theorem alike_install_claim {db : Database} {result : CompactionResult}
    {levels : Nat → List SSTable} :
    Alike ({ db.claim.withOutputs result with levels := levels }.install outputLevel added inputs)
      ({ db.withOutputs result with levels := levels }.install outputLevel added inputs).claim := by
  have kept := tablesOnly_round db result levels outputLevel added inputs
  have claimed := tablesOnly_round db.claim result levels outputLevel added inputs
  exact ⟨rfl, rfl, rfl, rfl, rfl, rfl, rfl, rfl, rfl, kept.vlogs.trans claimed.vlogs.symm⟩

/-- Both branches of a round. -/
theorem alike_ite {c : Prop} [Decidable c] {first second claimed raised : Status × Database}
    (positive : Alike first.2 claimed.2.claim) (negative : Alike second.2 raised.2.claim) :
    Alike (if c then first else second).2 (if c then claimed else raised).2.claim := by
  split
  · exact positive
  · exact negative

/-- Background steps do not look at the counter. -/
theorem alike_maintain_claim (db : Database) (sorter : StdSort internalKeyLess)
    (step : Maintenance) :
    Alike (db.claim.maintain sorter step) (db.maintain sorter step).claim := by
  cases step with
  | triggerFlush =>
    change Alike (if db.imm.isSome then _ else _) (if db.imm.isSome then _ else _ : Database).claim
    split <;> exact .refl
  | flushWrite =>
    have same : db.claim.imm = db.imm := rfl
    rw [maintain, maintain, flushWrite, flushWrite, same]
    cases db.imm with
    | none => exact .refl
    | some _ =>
      change Alike (if db.flushing then _ else _) (if db.flushing then _ else _ : Database).claim
      split
      · exact .refl
      · exact ⟨rfl, rfl, rfl, rfl, rfl, rfl, rfl, rfl, rfl, rfl⟩
  | flushRelease =>
    change Alike (if db.flushing then _ else _) (if db.flushing then _ else _ : Database).claim
    split <;> exact .refl
  | level0Compaction => exact alike_ite .refl (alike_ite alike_install_claim .refl)
  | levelCompaction level =>
    have same : db.claim.levels = db.levels := rfl
    rw [maintain, doLevelCompaction, same]
    refine alike_ite .refl ?_
    cases db.levels level with
    | nil => exact .refl
    | cons _ _ => exact alike_ite alike_install_claim .refl
  | compactionError _ => exact .refl

/-! ## Serving a map -/

/-- The invariants that calls and background steps keep, and the answers of the map. The
empty key is no user key. -/
structure Serving (db : Database) (store : Store) : Prop where
  consistent : Consistent db
  numbered : Numbered db
  answers : ∀ key, UserKey key → db.get key = store.answer key
  unnamed : store [] = none

/-- What `Scan` needs besides. -/
structure Scanning (db : Database) : Prop where
  unmixed : Unmixed db
  stacked : Stacked db
  plain : PlainValues db

/-- The map is served with the counter as it is, or as it would be behind one more claim. -/
def Resumes (db : Database) (store : Store) : Prop :=
  Serving db store ∨ Serving db.claim store

variable {store : Store}

theorem Serving.listing (serving : Serving db store) (scanning : Scanning db) :
    Listing store.answer keyPrefix limit (db.scan 0 keyPrefix limit) := by
  refine (serving.consistent.listing_scan scanning.unmixed scanning.stacked scanning.plain).congr ?_
  intro key unmarked
  by_cases empty : key = []
  · rw [empty, serving.consistent.get_nil, answer, serving.unnamed]
  · exact (serving.answers key ⟨empty, unmarked⟩).symm

/-- `Get` answers in both cases. -/
theorem Resumes.get_eq (resumes : Resumes db store) (user : UserKey key) :
    db.get key = store.answer key := by
  rcases resumes with serving | behind
  · exact serving.answers key user
  · rw [← behind.answers key user]
    exact (behind.consistent.capped_of_claim.get_claim behind.consistent.toReadable.memTombstones
      behind.consistent.toReadable.immTombstones).symm

/-- `Scan` lists in both cases. -/
theorem Resumes.listing (resumes : Resumes db store) (scanning : Scanning db) :
    Listing store.answer keyPrefix limit (db.scan 0 keyPrefix limit) := by
  rcases resumes with serving | behind
  · exact serving.listing scanning
  have consistent := behind.consistent
  have registered : ∀ mem ∈ db.memTables, mem.rangeTombstones ⊆ db.rangeTombstones := by
    intro mem member
    rcases mem_cons.mp member with rfl | rotated
    · exact consistent.toReadable.memTombstones
    · exact consistent.toReadable.immTombstones mem (mem_toList.mp rotated)
  have raised : Scanning db.claim := ⟨scanning.unmixed, scanning.stacked, scanning.plain⟩
  have sorted : ∀ source ∈ db.merger.sources, Sorted Entry.key Entry.seq source.entries :=
    raised.stacked.sorted_sources consistent
  rw [← consistent.capped_of_claim.scan_claim registered sorted]
  exact behind.listing raised

/-! ## Steps -/

/-- No version that the call touches has the number that the call takes. Once the counter
stands above all stored numbers, that is always so. -/
def TakesNew (db : Database) (call : Call) : Prop :=
  ∀ entry ∈ db.allVersions, (∃ op ∈ call.ops, op.touches entry.key = true) →
    entry.seq ≠ db.lastSeq
  deriving Decidable

theorem applyAll_nil (keys : UserKeys ops) (unnamed : store [] = none) :
    store.applyAll ops [] = none := by
  rw [applyAll_eq]
  cases touched : BatchOp.lastTouch ops [] with
  | none => exact unnamed
  | some op =>
    obtain ⟨member, touches⟩ := BatchOp.mem_of_lastTouch touched
    cases op with
    | value key value =>
      have user := keys _ member 0 ⟨key, 0, .value, value⟩ rfl
      exact absurd (by simpa [BatchOp.touches] using touches) user.1
    | deletion _ => rfl
    | rangeDeletion _ _ => rfl

theorem Serving.call (serving : Serving db store) {call : Call} (accepts : db.Accepts call) :
    Serving (db.call call) (store.applyAll call.ops) := by
  obtain ⟨consistent, answers⟩ := serving.consistent.call accepts
  refine ⟨consistent, serving.numbered.call, ?_, applyAll_nil accepts.keys serving.unnamed⟩
  intro key user
  rw [answers key user, serving.answers key user, answer_applyAll]

/-- A write that takes a new number leads on. -/
theorem Resumes.call (resumes : Resumes db store) {call : Call} (accepts : db.Accepts call)
    (apart : db.TakesNew call) : Resumes (db.call call) (store.applyAll call.ops) := by
  rcases resumes with serving | behind
  · exact .inl (serving.call accepts)
  have unnamed := applyAll_nil accepts.keys behind.unnamed
  rcases db.call_cases call with ⟨same, untouched⟩ | ⟨_, seq_eq, ops_eq, later⟩
  · rw [same]
    refine .inr ⟨behind.consistent, behind.numbered, ?_, unnamed⟩
    intro key user
    rw [behind.answers key user, answer_applyAll, answerAfter, untouched]
  obtain ⟨consistent, answers⟩ := behind.consistent.write_claimed seq_eq ops_eq
    (fun entry point => apart entry (mem_allVersions_of_points point)) accepts.keys
    accepts.ordered accepts.fits
  rw [← later] at consistent answers
  have numbered : Numbered db := behind.numbered.congr rfl (le_refl _)
  refine .inl ⟨consistent, numbered.call, ?_, unnamed⟩
  intro key user
  rw [answers key user, behind.answers key user, answer_applyAll]

theorem RoundOrderly.claim (orderly : db.RoundOrderly level picked range) :
    db.claim.RoundOrderly level picked range := ⟨orderly.alone, orderly.newer⟩

variable {step : Maintenance}

theorem orderly_claim (orderly : db.Orderly step) : db.claim.Orderly step := by
  cases step with
  | level0Compaction => exact ⟨orderly.1, orderly.2.claim⟩
  | levelCompaction _ => exact fun picked first => (orderly picked first).claim
  | triggerFlush | flushWrite | flushRelease | compactionError _ => trivial

theorem Serving.maintain (serving : Serving db store) (orderly : db.Orderly step)
    (untied : db.UntiedInputs step) (sorter : StdSort internalKeyLess) :
    Serving (db.maintain sorter step) store ∧ (db.maintain sorter step).points ⊆ db.points := by
  obtain ⟨maintains, numbered⟩ := serving.consistent.maintain serving.numbered orderly untied sorter
  exact ⟨⟨maintains.consistent, numbered,
    fun key user => (maintains.answers key user).trans (serving.answers key user),
    serving.unnamed⟩, maintains.points⟩

theorem Alike.serving (alike : Alike db other) (serving : Serving db store) :
    Serving other store where
  consistent := alike.consistent serving.consistent
  numbered := serving.numbered.congr alike.levels (le_of_eq alike.nextFileId.symm)
  answers key user := alike.get_eq.trans (serving.answers key user)
  unnamed := serving.unnamed

/-- Background steps do not look at the counter. -/
theorem Resumes.maintain (resumes : Resumes db store) (orderly : db.Orderly step)
    (untied : db.UntiedInputs step) (sorter : StdSort internalKeyLess) :
    Resumes (db.maintain sorter step) store ∧ (db.maintain sorter step).points ⊆ db.points := by
  rcases resumes with serving | behind
  · obtain ⟨later, fewer⟩ := serving.maintain orderly untied sorter
    exact ⟨.inl later, fewer⟩
  have alike := db.alike_maintain_claim sorter step
  have raised_orderly : db.claim.Orderly step := orderly_claim orderly
  have raised_untied : db.claim.UntiedInputs step := by
    cases step <;> exact untied
  obtain ⟨later, fewer⟩ := behind.maintain raised_orderly raised_untied sorter
  refine ⟨.inr (alike.serving later), ?_⟩
  have same : (db.maintain sorter step).points = (db.claim.maintain sorter step).points :=
    alike.points_eq
  rw [same]
  exact fewer

theorem Resumes.capped (resumes : Resumes db store) : Capped db := by
  rcases resumes with serving | behind
  · have housed := serving.consistent.toHoused
    exact ⟨fun run member entry inside => le_of_lt (housed.older run member entry inside),
      fun tombstone member => le_of_lt (housed.pastTombstones tombstone member)⟩
  · exact behind.consistent.capped_of_claim

theorem Scanning.call (scanning : Scanning db) (resumes : Resumes db store) {call : Call}
    (accepts : db.Accepts call) (apart : db.TakesNew call) (single : call.ops.length ≤ 1)
    (plain : PlainCall db.options call) : Scanning (db.call call) where
  unmixed := by
    rcases resumes with serving | behind
    · exact scanning.unmixed.call serving.consistent single
    rcases db.call_cases call with ⟨same, _⟩ | ⟨_, seq_eq, ops_eq, later⟩
    · rw [same]
      exact scanning.unmixed
    have committable := behind.consistent.committable_claimed seq_eq ops_eq
      (fun entry point => apart entry (mem_allVersions_of_points point)) accepts.keys
      accepts.ordered accepts.fits
    rw [later]
    refine Unmixed.commit scanning.unmixed committable.above ?_
    rw [ops_eq, length_prepareOps]
    exact single
  stacked := scanning.stacked.call resumes.capped.versions
  plain := scanning.plain.call plain

theorem Scanning.maintain (scanning : Scanning db)
    (fewer : (db.maintain sorter step).points ⊆ db.points) :
    Scanning (db.maintain sorter step) where
  unmixed first in_first second in_second :=
    scanning.unmixed first (fewer in_first) second (fewer in_second)
  stacked := scanning.stacked.maintain
  plain := scanning.plain.subset fewer

/-! ## Runs -/

/-- Calls that the database accepts and that use no number twice for a key, and orderly
rounds. -/
def Continues (db : Database) : Event → Prop
  | .call call => db.Accepts call ∧ db.TakesNew call
  | .maintain step => db.Orderly step ∧ db.UntiedInputs step
  | .crash _ => False

instance (db : Database) : DecidablePred db.Continues := by
  intro event
  induction event using Event.casesOn <;> unfold Continues <;> infer_instance

/-- A run whose writes take new numbers answers as the store does. -/
theorem Resumes.run (resumes : Resumes db store)
    (continues : Meets (Database.step sorter) Continues db events) :
    Resumes (Runs.run (Database.step sorter) db events)
      (Runs.run (fun store event => store.applyAll event.ops) store events) := by
  refine continues.relates resumes ?_
  intro _ _ event resumes continues
  cases event with
  | call _ => exact resumes.call continues.1 continues.2
  | maintain _ => exact (resumes.maintain continues.1 continues.2 sorter).1
  | crash _ => exact absurd continues id

/-- Without batches, and with values that `Scan` returns as they were put, it is scanned too. -/
theorem Scanning.run (scanning : Scanning db) (resumes : Resumes db store)
    (continues : Meets (Database.step sorter) Continues db events)
    (scannable : Meets (Database.step sorter) Scannable db events) :
    Scanning (Runs.run (Database.step sorter) db events) := by
  have both : Resumes (Runs.run (Database.step sorter) db events)
        (Runs.run (fun store event => store.applyAll event.ops) store events) ∧
      Scanning (Runs.run (Database.step sorter) db events) := by
    refine @Meets.relates _ _ _ _ _ _ (fun db store => Resumes db store ∧ Scanning db) _ _
      (continues.and scannable) _ ⟨resumes, scanning⟩ ?_
    rintro _ _ event ⟨resumes, scanning⟩ ⟨continues, scannable⟩
    cases event with
    | call call =>
      refine ⟨resumes.call continues.1 continues.2, ?_⟩
      cases call with
      | put _ _ | delete _ | deleteRange _ _ =>
        exact scanning.call resumes continues.1 continues.2 (le_refl 1) scannable.2
      | batchWrite _ => exact absurd scannable id
    | maintain _ =>
      obtain ⟨later, fewer⟩ := resumes.maintain continues.1 continues.2 sorter
      exact ⟨later, scanning.maintain fewer⟩
    | crash _ => exact absurd continues id
  exact both.2

end Database

end LightKV
