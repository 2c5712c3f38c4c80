import LightKV.Clients
import LightKV.ConcurrentWrites
import LightKV.SnapshotView

/-!
# Reads of a transaction

A transaction reads its own buffer first and then the database at the sequence number it was
created with. Meanwhile other clients claim numbers and write, in whatever order, and the
background thread rotates, flushes and compacts.

Nothing tells a compaction of the transaction: the list of active snapshots that bounds what
a round may drop is never filled. So a round that merges a version the transaction sees with
a newer one it does not see drops the former. As long as no round does that, a key outside
the buffer reads as the map after the writes up to the number, in the order of the numbers.

The number `0` stands for the latest state and is no snapshot. A number that is not claimed
yet, or claimed by a writer who has not written yet, will be seen later.
-/

namespace LightKV

open Versions Levels Runs List Option

/-! ## Transactions -/

/-- `Transaction`. -/
structure Transaction where
  snapshotSeq : Nat
  committed : Bool
  writeBuf : List Write
  deriving Repr

namespace Transaction

/-- A transaction as its constructor leaves it. -/
def new (snapshotSeq : Nat) : Transaction := ⟨snapshotSeq, false, []⟩

/-- `Transaction::Get`. -/
def get (transaction : Transaction) (db : Database) (key : Bytes) : Except Status Bytes :=
  if transaction.committed then .error (.invalidArgument "transaction already committed")
  else
    match transaction.writeBuf.reverse.find? fun op => decide (op.key = key) with
    | some (.put _ value) => .ok value
    | some (.delete _) => .error (.notFound "")
    | none => db.getAt transaction.snapshotSeq key

theorem get_eq_getAt {transaction : Transaction} (opened : transaction.committed = false)
    (foreign : ∀ op ∈ transaction.writeBuf, op.key ≠ key) :
    transaction.get db key = db.getAt transaction.snapshotSeq key := by
  have missing : (transaction.writeBuf.reverse.find? fun op => decide (op.key = key)) = none := by
    rw [find?_eq_none]
    intro op member
    rw [decide_eq_true_eq]
    exact foreign op (mem_reverse.mp member)
  rw [get, opened, missing]
  rfl

end Transaction

/-! ## What the readers need -/

namespace Clients

/-- What the readers of a key at a snapshot need. No round splits the key at the snapshot. A
call on the key with a number up to the snapshot enters before later ones that are seen,
with its operations in an order that one number can express. Besides, numbers have 56
bits, keys are user keys, values fit the value log, and rounds are orderly. -/
def Respects (snapshot : Nat) (key : Bytes) (state : Clients) : ClientEvent → Prop
  | .claim => state.db.lastSeq < 2 ^ 56
  | .write seq call => UserKeys call.ops ∧
      LogFits state.db.options call.ops state.db.vlog state.db.disk.vlogs ∧
      (seq ≤ snapshot → Ordered call.ops ∧
        ∀ op ∈ call.ops, ∀ point ∈ op.point seq, point.key = key →
          ∀ entry ∈ state.db.allVersions, entry.key = key → entry.seq ≤ snapshot →
            entry.seq < seq)
  | .maintain step => state.db.Orderly step ∧ state.db.UntiedInputs step ∧
      state.db.UnsplitInputs snapshot key step

instance (snapshot : Nat) (key : Bytes) (state : Clients) :
    DecidablePred (state.Respects snapshot key) := by
  intro event
  induction event using ClientEvent.casesOn <;> unfold Respects
  on_goal 2 => exact @instDecidableAnd _ _ _ (@instDecidableAnd _ _ _ instDecidableForall)
  all_goals infer_instance

/-- Every number up to the snapshot is claimed, and its call is written. -/
def Settled (snapshot : Nat) (state : Clients) : Prop :=
  snapshot < state.db.lastSeq ∧ ∀ seq ∈ state.claimed, snapshot < seq
  deriving Decidable

end Clients

/-! ## The writes up to a number -/

/-- The operations written under a number. -/
def opsAt (made : List (Nat × List BatchOp)) (seq : Nat) : List BatchOp :=
  ((made.find? fun write => decide (write.1 = seq)).map Prod.snd).getD []

/-- The operations written under the numbers up to a snapshot, in the order of the numbers. -/
def opsUpTo (made : List (Nat × List BatchOp)) (snapshot : Nat) : List BatchOp :=
  (List.range (snapshot + 1)).flatMap (opsAt made)

/-- Under a number that was written once stand the operations of that write. -/
theorem opsAt_eq (unique : (made.map Prod.fst).Nodup) (member : (seq, ops) ∈ made) :
    opsAt made seq = ops := by
  have found : made.find? (fun write => decide (write.1 = seq)) = some (seq, ops) := by
    obtain ⟨write, found⟩ := isSome_iff_exists.mp
      (find?_isSome (p := fun write => decide (write.1 = seq)) |>.mpr
        ⟨(seq, ops), member, decide_eq_true rfl⟩)
    have same : write.1 = seq := by simpa using find?_some found
    rw [found, some.injEq]
    exact inj_on_of_nodup_map unique (mem_of_find?_eq_some found) member same
  rw [opsAt, found]
  rfl

theorem mem_of_opsAt (member : op ∈ opsAt made seq) : (seq, opsAt made seq) ∈ made := by
  unfold opsAt at member ⊢
  cases found : made.find? fun write => decide (write.1 = seq) with
  | none =>
    rw [found] at member
    exact absurd member (by simp)
  | some write =>
    have same : write.1 = seq := by simpa using find?_some found
    have inside := mem_of_find?_eq_some found
    rw [← same]
    exact inside

theorem opsUpTo_cons (above : snapshot < write.1) :
    opsUpTo (write :: made) snapshot = opsUpTo made snapshot := by
  apply flatMap_congr
  intro _ member
  have bound := mem_range.mp member
  unfold opsAt
  rw [find?_cons_of_neg]
  simp only [decide_eq_true_eq]
  omega

namespace Database

/-- How the versions of a key and the tombstones that a snapshot sees come from the writes. -/
structure Recorded (db : Database) (snapshot : Nat) (key : Bytes)
    (made : List (Nat × List BatchOp)) : Prop where
  unique : (made.map Prod.fst).Nodup
  ordered : ∀ seq ops, (seq, ops) ∈ made → seq ≤ snapshot → Ordered ops
  source : ∀ entry ∈ db.seen snapshot, ∃ ops, (entry.seq, ops) ∈ made ∧ ∃ op ∈ ops, ∃ form,
    Prepared db.vlog db.disk.vlogs op form ∧ form.point entry.seq = some entry
  kept : ∀ seq ops, (seq, ops) ∈ made → seq ≤ snapshot → ∀ op ∈ ops, ∀ entry,
    op.point seq = some entry → entry.key = key →
      ∃ newer ∈ db.seen snapshot, newer.key = key ∧ entry.rank ≤ newer.rank
  hides : ∀ seq ops, (seq, ops) ∈ made → seq ≤ snapshot → ∀ beginKey endKey,
    BatchOp.rangeDeletion beginKey endKey ∈ ops →
      (⟨beginKey, endKey, seq⟩ : RangeTombstone) ∈ db.rangeTombstones
  ranges : ∀ tombstone ∈ db.rangeTombstones, tombstone.seq ≤ snapshot →
    ∃ ops, (tombstone.seq, ops) ∈ made ∧
      BatchOp.rangeDeletion tombstone.beginKey tombstone.endKey ∈ ops

variable {db : Database} {snapshot : Nat} {key : Bytes} {made : List (Nat × List BatchOp)}

section

variable (recorded : Recorded db snapshot key made)
include recorded

/-- A version that is seen was made by an operation on its key. -/
theorem Recorded.touched (member : entry ∈ db.seen snapshot) :
    BatchOp.lastTouch (opsAt made entry.seq) entry.key ≠ none := by
  obtain ⟨_, written, op, in_ops, _, prepared, point⟩ := recorded.source entry member
  have touched : op.touches entry.key = true := by
    rw [← prepared.touches_eq]
    exact BatchOp.touches_of_point point
  obtain ⟨last, found⟩ := BatchOp.lastTouch_isSome in_ops touched
  rw [opsAt_eq recorded.unique written, found]
  exact some_ne_none last

/-- A value that is seen is the last that its write puts there. -/
theorem Recorded.value (member : entry ∈ db.seen snapshot) (value : entry.type = .value) :
    ∃ written, BatchOp.lastTouch (opsAt made entry.seq) entry.key =
        some (.value entry.key written) ∧
      db.vlog.unwrap db.disk.vlogs entry.value = .ok written := by
  obtain ⟨ops, written, _, in_ops, _, prepared, point⟩ := recorded.source entry member
  have ordered := recorded.ordered entry.seq ops written member.2
  rw [opsAt_eq recorded.unique written]
  cases prepared with
  | value put bytes _ _ reads =>
    rw [BatchOp.point, some.injEq] at point
    rw [← point]
    exact ⟨bytes, ordered put bytes in_ops, reads⟩
  | deletion _ =>
    rw [BatchOp.point, some.injEq] at point
    rw [← point] at value
    cases value
  | rangeDeletion _ _ => simp [BatchOp.point] at point

/-- A tombstone that is seen was made by an operation on the keys in its range. -/
theorem Recorded.spanned (member : tombstone ∈ db.rangeTombstones)
    (seen : tombstone.seq ≤ snapshot) (spans : tombstone.spans key = true) :
    BatchOp.lastTouch (opsAt made tombstone.seq) key ≠ none := by
  obtain ⟨ops, written, in_ops⟩ := recorded.ranges tombstone member seen
  obtain ⟨last, found⟩ : ∃ last, BatchOp.lastTouch ops key = some last :=
    BatchOp.lastTouch_isSome in_ops spans
  rw [opsAt_eq recorded.unique written, found]
  exact some_ne_none last

/-- What is read at the snapshot is what the writes up to it say, in the order of their
numbers. -/
theorem Recorded.readAt_eq (readable : ReadableAt db snapshot key) :
    db.readAt snapshot key = (Store.empty.applyAll (opsUpTo made snapshot)).answer key := by
  rw [Store.answer_applyAll, Store.answerAfter]
  rcases BatchOp.lastTouch_flatMap_range with
    ⟨untouched, all⟩ | ⟨seq, below, touched, decided, quiet⟩
  · rw [opsUpTo, untouched]
    apply readable.readAt_eq_notFound
    rintro entry member rfl
    exact recorded.touched member (all entry.seq (Nat.lt_succ_of_le member.2))
  have bound : seq ≤ snapshot := Nat.le_of_lt_succ below
  -- Nothing above the number concerns the key.
  have latest : ∀ entry ∈ db.seen snapshot, entry.key = key → entry.seq ≤ seq := by
    rintro entry member rfl
    by_contra above
    exact recorded.touched member
      (quiet entry.seq (Nat.lt_succ_of_le member.2) (Nat.lt_of_not_le above))
  have uncovered : covered db.rangeTombstones key seq snapshot = false := by
    apply Bool.eq_false_iff.mpr
    intro hidden
    obtain ⟨tombstone, member, hides⟩ := (covered_iff ..).mp hidden
    obtain ⟨above, seen, spans⟩ := (tombstone.hides_iff ..).mp hides
    exact recorded.spanned member seen spans (quiet tombstone.seq (Nat.lt_succ_of_le seen) above)
  obtain ⟨op, last⟩ := ne_none_iff_exists'.mp touched
  obtain ⟨in_ops, touches⟩ := BatchOp.mem_of_lastTouch last
  have written := mem_of_opsAt in_ops
  rw [opsUpTo, decided, last]
  -- A point under the number leads to a version there.
  have at_number : ∀ point : Entry, op.point seq = some point → ∃ entry,
      Newest Entry.key Entry.rank (db.seen snapshot) key entry ∧ entry.seq = seq ∧
        point.rank ≤ entry.rank ∧ db.readAt snapshot key = db.resolveAt snapshot entry := by
    intro point made_point
    have same := BatchOp.key_of_touches made_point touches
    obtain ⟨newer, in_newer, newer_key, at_least⟩ :=
      recorded.kept seq _ written bound op in_ops point made_point same
    rcases readable.readAt_newest with ⟨entry, newest, answer⟩ | ⟨absent, _⟩
    · have higher := le_trans at_least (newest.2.2 newer in_newer newer_key)
      refine ⟨entry, newest, le_antisymm (latest entry newest.1 newest.2.1) ?_, higher, answer⟩
      exact BatchOp.seq_of_point made_point ▸ Entry.seq_le_of_rank_le higher
    · exact absurd newer_key (absent newer in_newer)
  cases op with
  | value _ _ =>
    obtain ⟨entry, newest, rfl, higher, answer⟩ := at_number _ rfl
    have value : entry.type = .value := by refine Entry.value_of_rank_le ?_ ?_ higher <;> rfl
    obtain ⟨_, decides, reads⟩ := recorded.value newest.1 value
    rw [newest.2.1, last, some.injEq, BatchOp.value.injEq] at decides
    rw [answer, resolveAt, if_neg (by simp [value]), answerValue, newest.2.1, uncovered, reads,
      decides.2]
    rfl
  | deletion _ =>
    obtain ⟨entry, newest, rfl, _, answer⟩ := at_number _ rfl
    cases kind : entry.type with
    | deletion =>
      rw [answer, resolveAt, if_pos kind]
      rfl
    | value =>
      obtain ⟨_, decides, _⟩ := recorded.value newest.1 kind
      rw [newest.2.1, last] at decides
      exact absurd decides (by simp)
  | rangeDeletion beginKey endKey =>
    have hidden := recorded.hides seq _ written bound beginKey endKey in_ops
    rcases readable.readAt_newest with ⟨entry, newest, answer⟩ | ⟨_, answer⟩
    · rw [answer, resolveAt]
      split
      · rfl
      rename_i value
      have older : entry.seq < seq := by
        refine lt_of_le_of_ne (latest entry newest.1 newest.2.1) ?_
        rintro rfl
        obtain ⟨_, decides, _⟩ := recorded.value newest.1 (by
          cases kind : entry.type with
          | value => rfl
          | deletion => exact absurd kind value)
        rw [newest.2.1, last] at decides
        exact absurd decides (by simp)
      rw [answerValue, newest.2.1, if_pos]
      · rfl
      · exact (covered_iff ..).mpr ⟨_, hidden, (RangeTombstone.hides_iff ..).mpr
          ⟨older, bound, touches⟩⟩
    · exact answer

/-! ## What keeps the record -/

theorem Recorded.withVLog (extended : LogExtends db.disk.vlogs log.2) :
    Recorded (db.withVLog log) snapshot key made :=
  { recorded with
    source := by
      intro entry member
      obtain ⟨ops, written, op, in_ops, form, prepared, point⟩ := recorded.source entry member
      exact ⟨ops, written, op, in_ops, form, prepared.mono extended, point⟩ }

/-- A record of prepared operations adds its write. -/
theorem Recorded.commit (keys : ∀ entry ∈ record.points, UserKey entry.key)
    (prepared : List.Forall₂ (Prepared db.vlog db.disk.vlogs) ops record.ops)
    (unwritten : record.seq ∉ made.map Prod.fst) (ordered : record.seq ≤ snapshot → Ordered ops) :
    Recorded (db.commit record) snapshot key ((record.seq, ops) :: made) where
  unique := nodup_cons.mpr ⟨unwritten, recorded.unique⟩
  ordered := by
    intro seq written member seen
    rcases mem_cons.mp member with new | old
    · obtain ⟨rfl, rfl⟩ := Prod.mk.inj new
      exact ordered seen
    · exact recorded.ordered seq written old seen
  source := by
    intro entry member
    rcases (mem_seen_commit keys).mp member with ⟨new, _⟩ | old
    · obtain ⟨op, in_ops, form, related, point⟩ := exists_client prepared new
      have same := BatchOp.seq_of_point point
      exact ⟨ops, same ▸ mem_cons_self, op, in_ops, form, related, same ▸ point⟩
    · obtain ⟨written, listed, rest⟩ := recorded.source entry old
      exact ⟨written, mem_cons_of_mem _ listed, rest⟩
  kept := by
    intro seq written member seen op in_ops entry point entry_key
    rcases mem_cons.mp member with new | old
    · obtain ⟨rfl, rfl⟩ := Prod.mk.inj new
      obtain ⟨stored, inside, same_key, same_rank⟩ := exists_stored prepared in_ops point
      exact ⟨stored, (mem_seen_commit keys).mpr (.inl ⟨inside, seen⟩),
        same_key.trans entry_key, le_of_eq same_rank.symm⟩
    · obtain ⟨newer, inside, facts⟩ :=
        recorded.kept seq written old seen op in_ops entry point entry_key
      exact ⟨newer, (mem_seen_commit keys).mpr (.inr inside), facts⟩
  hides := by
    intro seq written member seen beginKey endKey in_ops
    rcases mem_cons.mp member with new | old
    · obtain ⟨rfl, rfl⟩ := Prod.mk.inj new
      obtain ⟨_, in_forms, related⟩ := Prepared.exists_form prepared in_ops
      cases related
      exact mem_append_right _ (mem_filterMap.mpr ⟨_, in_forms, rfl⟩)
    · exact mem_append_left _ (recorded.hides seq written old seen beginKey endKey in_ops)
  ranges := by
    intro tombstone member seen
    rcases mem_append.mp member with old | new
    · obtain ⟨written, listed, in_ops⟩ := recorded.ranges tombstone old seen
      exact ⟨written, mem_cons_of_mem _ listed, in_ops⟩
    · have same := WALRecord.seq_of_mem_tombstones new
      exact ⟨ops, same ▸ mem_cons_self, exists_rangeDeletion prepared new⟩

/-- Background work keeps the record with the view. -/
theorem Recorded.keep (seenKept : SeenKept db later snapshot key) :
    Recorded later snapshot key made where
  unique := recorded.unique
  ordered := recorded.ordered
  source := by
    intro entry member
    rw [seenKept.vlog, seenKept.vlogs]
    exact recorded.source entry (seenKept.subset member)
  kept := by
    intro seq ops written seen op in_ops entry point entry_key
    obtain ⟨newer, inside, same, at_least⟩ :=
      recorded.kept seq ops written seen op in_ops entry point entry_key
    obtain ⟨newest, in_later, also, further⟩ := seenKept.newer newer inside same
    exact ⟨newest, in_later, also, le_trans at_least further⟩
  hides := by
    rw [seenKept.rangeTombstones]
    exact recorded.hides
  ranges := by
    rw [seenKept.rangeTombstones]
    exact recorded.ranges

end

end Database

/-! ## Runs -/

namespace Clients

/-- What holds between the events, for the readers of a key at a snapshot. -/
structure Serves (snapshot : Nat) (key : Bytes) (state : Clients) : Prop extends Sound state where
  viewed : state.db.Viewed snapshot key
  recorded : state.db.Recorded snapshot key state.made

variable {state : Clients} {snapshot : Nat} {key : Bytes}

theorem serves_fresh (user : UserKey key) : Serves snapshot key (fresh options) :=
  { sound_fresh with
    viewed := (Database.consistent_fresh options).viewed (Nat.zero_le _) user
    recorded :=
      { unique := nodup_nil
        ordered := nofun
        source := fun entry member => by
          have impossible := member.1
          change entry ∈ (Database.fresh options).points at impossible
          rw [Database.points_fresh] at impossible
          exact absurd impossible (Set.notMem_empty entry)
        kept := nofun
        hides := nofun
        ranges := nofun } }

section

variable (serves : Serves snapshot key state)
include serves

theorem Serves.claim (room : state.db.lastSeq < 2 ^ 56) :
    Serves snapshot key (state.step sorter .claim) :=
  { serves.toSound.claim room sorter with
    viewed := serves.viewed.claim
    recorded := { serves.recorded with } }

theorem Serves.write (respects : state.Respects snapshot key (.write seq call))
    (member : seq ∈ state.claimed) :
    Serves snapshot key ⟨state.db.writeCall seq call, state.claimed.erase seq,
      (seq, call.ops) :: state.made⟩ := by
  obtain ⟨users, fits, inTurn⟩ := respects
  obtain ⟨log, record, enters⟩ := Database.exists_enters serves.housed.sound fits
  have later := serves.toSound.write enters users member
  obtain ⟨rfl, _, extended, prepared, written⟩ := enters
  have keys := Database.userKey_of_prepared prepared users
  have settles : record.seq ≤ snapshot → (state.db.withVLog log).Settles snapshot key record := by
    intro seen
    obtain ⟨ordered, above⟩ := inTurn seen
    refine ⟨⟨Database.lastHighest_of_prepared prepared ordered,
      Database.agree_of_prepared prepared ordered⟩, ?_⟩
    intro _ new entry_key other old other_key
    obtain ⟨op, in_ops, _, related, point⟩ := Database.exists_client prepared new
    obtain ⟨client, client_point, same_key⟩ := related.exists_client_point point
    exact above op in_ops client client_point (same_key.trans entry_key) other
      (Database.mem_allVersions_of_points old.1) other_key old.2
  refine ⟨later, ?_, ?_⟩
  · rw [written]
    exact (serves.viewed.withVLog serves.housed extended).commit keys settles
  · rw [written]
    exact (serves.recorded.withVLog extended).commit keys prepared
      (serves.pending record.seq member).2 fun seen => (inTurn seen).1

variable (sorter : StdSort internalKeyLess)

theorem Serves.maintain {step : Maintenance}
    (respects : state.Respects snapshot key (.maintain step)) :
    Serves snapshot key (state.step sorter (.maintain step)) := by
  obtain ⟨orderly, untied, unsplit⟩ := respects
  have turn := Database.turn_maintain serves.numbered orderly sorter
  obtain ⟨viewed, seenKept⟩ := serves.viewed.turn serves.housed turn untied unsplit
  exact ⟨serves.toSound.maintain sorter orderly untied, viewed, serves.recorded.keep seenKept⟩

/-- Every event that respects the snapshot keeps what its readers need. -/
theorem Serves.step (respects : state.Respects snapshot key event) :
    Serves snapshot key (state.step sorter event) := by
  cases event with
  | claim => exact serves.claim respects
  | write _ _ =>
    simp only [Clients.step]
    split
    · rename_i allowed
      exact serves.write respects allowed.1
    · exact serves
  | maintain _ => exact serves.maintain sorter respects

end

/-- Once the numbers up to the snapshot are written, the writes up to it stay as they are. -/
theorem Settled.step (settled : state.Settled snapshot) (serves : Serves snapshot key state)
    (sorter : StdSort internalKeyLess) (respects : state.Respects snapshot key event) :
    (state.step sorter event).Settled snapshot ∧
      opsUpTo (state.step sorter event).made snapshot = opsUpTo state.made snapshot := by
  cases event with
  | claim =>
    refine ⟨⟨Nat.lt_succ_of_lt settled.1, ?_⟩, rfl⟩
    intro seq member
    rcases mem_cons.mp member with rfl | old
    · exact settled.1
    · exact settled.2 seq old
  | write seq _ =>
    simp only [Clients.step]
    split
    · rename_i allowed
      obtain ⟨_, _, _, written⟩ := state.db.writeCall_eq
      refine ⟨⟨?_, fun other still => settled.2 other (mem_of_mem_erase still)⟩,
        opsUpTo_cons (settled.2 seq allowed.1)⟩
      rw [written]
      exact settled.1
    · exact ⟨settled, rfl⟩
  | maintain _ =>
    obtain ⟨orderly, untied, unsplit⟩ := respects
    obtain ⟨_, seenKept⟩ := serves.viewed.turn serves.housed
      (Database.turn_maintain serves.numbered orderly sorter) untied unsplit
    exact ⟨⟨seenKept.lastSeq.symm ▸ settled.1, settled.2⟩, rfl⟩

theorem serves_run (serves : Serves snapshot key state)
    (respects : Meets (step sorter) (Respects snapshot key) state events) :
    Serves snapshot key (run (step sorter) state events) :=
  respects.invariant serves fun _ _ serves meets => serves.step sorter meets

theorem settled_run (serves : Serves snapshot key state) (settled : state.Settled snapshot)
    (respects : Meets (step sorter) (Respects snapshot key) state events) :
    opsUpTo (run (step sorter) state events).made snapshot = opsUpTo state.made snapshot := by
  induction events generalizing state with
  | nil => rfl
  | cons _ _ ih =>
    obtain ⟨later, same⟩ := settled.step serves sorter respects.1
    exact (ih (serves.step sorter respects.1) later respects.2).trans same

end Clients

/-- The clients behind events on an empty directory. -/
abbrev clientsAfter (events : List ClientEvent) : Clients :=
  run (Clients.step Database.insertionSorter) (Clients.fresh Database.eager) events

/-- A rotation, a flush and a round on level 0. -/
def compacted : List ClientEvent :=
  [.maintain .triggerFlush, .maintain .flushWrite, .maintain .flushRelease,
    .maintain .level0Compaction]

/-- A key is put twice. -/
def putTwice : List ClientEvent :=
  [.claim, .write 0 (.put [107] [97]), .claim, .write 1 (.put [107] [98])]

/-- The key is put once more. -/
def putAgain : List ClientEvent :=
  [.claim, .write 2 (.put [107] [99])]

end LightKV
