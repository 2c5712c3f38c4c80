import LightKV.InternalKey

/-!
# The memtable

A memtable is a skip list of point versions, a list of range tombstones and the highest
sequence number it has seen. `SkipList::Insert` descends past the smaller keys only, so a
new node stands in front of every node of its key: the versions of one key form a stack,
and the list as a whole is ordered by key. That the keys are in order is part of the type.
Nothing here orders the versions of one key by sequence number; the first one found is the
one inserted last.

The write operations come as a sequence number with a list of operations: one operation
for a put, a deletion or a range deletion, several for a batch.
-/

namespace LightKV

open Versions List

/-- `RangeTombstone`. -/
structure RangeTombstone where
  beginKey : Bytes
  endKey : Bytes
  seq : Nat
  deriving DecidableEq, Repr

/-- The keys in the range of a tombstone. -/
def RangeTombstone.spans (tombstone : RangeTombstone) (key : Bytes) : Bool :=
  !decide (key < tombstone.beginKey) && decide (key < tombstone.endKey)

/-- A tombstone hides the older versions of the keys in its range from the readers that
see it. -/
def RangeTombstone.hides (tombstone : RangeTombstone) (key : Bytes) (seq snapshot : Nat) : Bool :=
  decide (seq < tombstone.seq) && decide (tombstone.seq ≤ snapshot) && tombstone.spans key

theorem RangeTombstone.hides_iff (tombstone : RangeTombstone) (key : Bytes) (seq snapshot : Nat) :
    tombstone.hides key seq snapshot = true ↔
      seq < tombstone.seq ∧ tombstone.seq ≤ snapshot ∧ tombstone.spans key = true := by
  simp [RangeTombstone.hides, and_assoc]

/-- `CoveredByRangeTombstone` and `IsRangeDeleted`: some tombstone of the list hides the
version. -/
def covered (tombstones : List RangeTombstone) (key : Bytes) (seq snapshot : Nat) : Bool :=
  tombstones.any fun tombstone => tombstone.hides key seq snapshot

theorem covered_iff (tombstones : List RangeTombstone) (key : Bytes) (seq snapshot : Nat) :
    covered tombstones key seq snapshot = true ↔
      ∃ tombstone ∈ tombstones, tombstone.hides key seq snapshot = true := by simp [covered]

theorem covered_mono (subset : fewer ⊆ more) (hidden : covered fewer key seq snapshot = true) :
    covered more key seq snapshot = true := by
  rw [covered_iff] at hidden ⊢
  obtain ⟨tombstone, member, hides⟩ := hidden
  exact ⟨tombstone, subset member, hides⟩

/-- Only the tombstones count, not their order or a snapshot that sees all of them. -/
theorem covered_congr (same : ∀ tombstone, tombstone ∈ first ↔ tombstone ∈ second)
    (seen : ∀ tombstone ∈ first, tombstone.seq ≤ snapshot)
    (later_seen : ∀ tombstone ∈ first, tombstone.seq ≤ later) (key : Bytes) (seq : Nat) :
    covered first key seq snapshot = covered second key seq later := by
  apply Bool.eq_iff_iff.mpr
  simp only [covered_iff, RangeTombstone.hides_iff]
  constructor
  · rintro ⟨tombstone, member, older, _, range⟩
    exact ⟨tombstone, (same tombstone).mp member, older, later_seen tombstone member, range⟩
  · rintro ⟨tombstone, member, older, _, range⟩
    have inside := (same tombstone).mpr member
    exact ⟨tombstone, inside, older, seen tombstone inside, range⟩

/-- `MemTable`: point versions in key order, range tombstones, highest sequence number. -/
structure MemTable where
  nodes : List Entry
  rangeTombstones : List RangeTombstone
  maxSeq : Nat
  ordered : KeySorted Entry.key nodes

/-- What `MemTable::Find` reports. -/
inductive MemTable.Lookup where
  | notFound
  | deleted (seq : Nat)
  | value (value : Bytes) (seq : Nat)
  deriving DecidableEq, Repr

namespace MemTable

variable (mem : MemTable)

/-- A new memtable. -/
def new : MemTable := ⟨[], [], 0, List.Pairwise.nil⟩

/-- `SkipList::Insert` and `SkipList::InsertDeletion`, with `NoteSeq`. -/
def insertNode (entry : Entry) : MemTable where
  nodes := insertFront Entry.key entry mem.nodes
  rangeTombstones := mem.rangeTombstones
  maxSeq := max mem.maxSeq entry.seq
  ordered := mem.ordered.insertFront

/-- `MemTable::Insert`. -/
def insert (seq : Nat) (key value : Bytes) : MemTable :=
  mem.insertNode ⟨key, seq, .value, value⟩

/-- `MemTable::InsertDeletion`. -/
def insertDeletion (seq : Nat) (key : Bytes) : MemTable :=
  mem.insertNode ⟨key, seq, .deletion, []⟩

/-- `MemTable::InsertRangeDeletion`. -/
def insertRangeDeletion (seq : Nat) (beginKey endKey : Bytes) : MemTable where
  nodes := mem.nodes
  rangeTombstones := mem.rangeTombstones ++ [⟨beginKey, endKey, seq⟩]
  maxSeq := max mem.maxSeq seq
  ordered := mem.ordered

/-- `MemTable::Find`. -/
def find (key : Bytes) (snapshot : Nat) : Lookup :=
  match lookup Entry.key key (fun entry => decide (entry.seq ≤ snapshot)) mem.nodes with
  | none => .notFound
  | some entry =>
      if entry.type = .deletion then .deleted entry.seq
      else if covered mem.rangeTombstones key entry.seq snapshot then .deleted entry.seq
      else .value entry.value entry.seq

/-- `MemTable::empty`. -/
def empty : Bool :=
  mem.nodes.isEmpty

/-- `MemTable::HasContent`. -/
def hasContent : Bool :=
  !mem.empty || !mem.rangeTombstones.isEmpty

/-- The versions of a key, the one inserted last in front. -/
def versions (key : Bytes) : List Entry :=
  ofKey Entry.key key mem.nodes

variable {mem}

theorem mem_versions : entry ∈ mem.versions key ↔ entry ∈ mem.nodes ∧ entry.key = key := by
  simp [versions]

@[simp] theorem versions_new (key : Bytes) : new.versions key = [] := rfl

/-- The version of a key that was inserted last among those a snapshot sees. -/
def seen (mem : MemTable) (key : Bytes) (snapshot : Nat) : Option Entry :=
  (mem.versions key).find? fun entry => decide (entry.seq ≤ snapshot)

variable {snapshot : Nat}

theorem mem_of_seen (found : mem.seen key snapshot = some entry) :
    entry ∈ mem.nodes ∧ entry.key = key ∧ entry.seq ≤ snapshot := by
  obtain ⟨inside, same⟩ := mem_versions.mp (mem_of_find?_eq_some found)
  exact ⟨inside, same, by simpa using find?_some found⟩

theorem unseen_iff :
    mem.seen key snapshot = none ↔ ∀ entry ∈ mem.nodes, entry.key = key → snapshot < entry.seq := by
  unfold seen
  rw [find?_eq_none]
  simp only [mem_versions, decide_eq_true_eq, not_le, and_imp]

/-- When every version is visible, the version inserted last is seen. -/
theorem seen_eq_head (mem : MemTable) (key : Bytes)
    (visible : ∀ entry ∈ mem.nodes, entry.seq ≤ snapshot) :
    mem.seen key snapshot = (mem.versions key).head? := by
  unfold seen
  cases stack : mem.versions key with
  | nil => rfl
  | cons entry _ =>
    have inside : entry ∈ mem.versions key := by rw [stack]; exact mem_cons_self
    have seen := visible entry (mem_versions.mp inside).1
    simp [seen]

end MemTable

/-! ## Write operations -/

/-- `WALRecord::BatchOp`: a value, a deletion or a range deletion. -/
inductive BatchOp where
  | value (key value : Bytes)
  | deletion (key : Bytes)
  | rangeDeletion (beginKey endKey : Bytes)
  deriving DecidableEq, Repr

/-- The point version an operation inserts. -/
def BatchOp.point (seq : Nat) : BatchOp → Option Entry
  | .value key stored => some ⟨key, seq, .value, stored⟩
  | .deletion key => some ⟨key, seq, .deletion, []⟩
  | .rangeDeletion _ _ => none

/-- The range tombstone an operation inserts. -/
def BatchOp.tombstone (seq : Nat) : BatchOp → Option RangeTombstone
  | .rangeDeletion beginKey endKey => some ⟨beginKey, endKey, seq⟩
  | _ => none

namespace MemTable

/-- Insert one operation. -/
def apply (seq : Nat) (mem : MemTable) : BatchOp → MemTable
  | .value key value => mem.insert seq key value
  | .deletion key => mem.insertDeletion seq key
  | .rangeDeletion beginKey endKey => mem.insertRangeDeletion seq beginKey endKey

/-- Insert the operations of one record in order. -/
def applyAll (mem : MemTable) (seq : Nat) (ops : List BatchOp) : MemTable :=
  ops.foldl (apply seq) mem

section

variable (mem : MemTable) (seq : Nat)
include mem seq

theorem versions_apply (op : BatchOp) (key : Bytes) :
    (mem.apply seq op).versions key =
      ofKey Entry.key key (op.point seq).toList ++ mem.versions key := by
  cases op with
  | value written _ | deletion written =>
    refine ofKey_insertFront.trans ?_
    by_cases same : written = key <;> simp [same, BatchOp.point, versions, ofKey_cons]
  | rangeDeletion _ _ => rfl

theorem rangeTombstones_apply (op : BatchOp) :
    (mem.apply seq op).rangeTombstones = mem.rangeTombstones ++ (op.tombstone seq).toList := by
  cases op <;> simp [apply, insert, insertDeletion, insertNode, insertRangeDeletion,
    BatchOp.tombstone]

/-- Inserting operations pushes their versions, the last one on top. -/
theorem versions_applyAll (ops : List BatchOp) (key : Bytes) :
    (mem.applyAll seq ops).versions key =
      (ofKey Entry.key key (ops.filterMap (BatchOp.point seq))).reverse ++ mem.versions key := by
  induction ops generalizing mem with
  | nil => rfl
  | cons op ops ih =>
    have step : mem.applyAll seq (op :: ops) = (mem.apply seq op).applyAll seq ops := rfl
    rw [step, ih, versions_apply, filterMap_cons]
    cases point : op.point seq with
    | none => rfl
    | some entry => by_cases same : entry.key = key <;> simp [same, ofKey_cons]

theorem rangeTombstones_applyAll (ops : List BatchOp) :
    (mem.applyAll seq ops).rangeTombstones =
      mem.rangeTombstones ++ ops.filterMap (BatchOp.tombstone seq) := by
  induction ops generalizing mem with
  | nil => simp [applyAll]
  | cons op ops ih =>
    have step : mem.applyAll seq (op :: ops) = (mem.apply seq op).applyAll seq ops := rfl
    rw [step, ih, rangeTombstones_apply, filterMap_cons]
    cases op.tombstone seq <;> simp

end

theorem mem_nodes_iff {mem : MemTable} : entry ∈ mem.nodes ↔ entry ∈ mem.versions entry.key := by
  simp [mem_versions]

theorem mem_nodes_applyAll {mem : MemTable} :
    entry ∈ (mem.applyAll seq ops).nodes ↔
      entry ∈ ops.filterMap (BatchOp.point seq) ∨ entry ∈ mem.nodes := by
  rw [mem_nodes_iff, versions_applyAll, mem_append, mem_versions]
  simp

end MemTable

end LightKV
