import LightKV.MemTable
import LightKV.RaftFiles
import LightKV.StateImage

/-!
# A failed install

`RestoreStateImage` decodes the image before it clears the database, so an image that cannot be
decoded changes nothing. Behind `Clear` nothing is undone: a `Put` that fails leaves the rows in
front of it, and the rows of before are gone, while the Raft handlers keep the log and the indices
that belong to those. The readers see what they saw before only if the rows that were put happen
to be the rows that were dropped, as far as the range tombstones that outlive `Clear` show them.
-/

namespace LightKV.FailedInstall

open Raft List StateImage

/-! ## A database that may fail -/

/-- A database as its readers see it: the versions from the newest on, without a value for a
deletion, wherever they are kept. -/
structure Contents where
  versions : List (Bytes × Nat × Option Bytes)
  rangeTombstones : List RangeTombstone
  lastSeq : Nat
  deriving DecidableEq, Repr

namespace Contents

/-- `Get`. -/
def get (contents : Contents) (key : Bytes) : Option Bytes :=
  (contents.versions.find? (·.1 = key)).bind fun version =>
    if covered contents.rangeTombstones key version.2.1 contents.lastSeq then none
    else version.2.2

/-- `Clear` from the point on at which it drops the data: the registered range tombstones stay. -/
def clear (contents : Contents) : Contents := { contents with versions := [], lastSeq := 0 }

/-- The number of a write is claimed. -/
def claim (contents : Contents) : Contents := { contents with lastSeq := contents.lastSeq + 1 }

/-- The section of `WriteImpl` under the write lock. -/
def insert (contents : Contents) (row : Row) : Contents :=
  { contents.claim with
    versions := (row.1, contents.lastSeq, some row.2) :: contents.versions }

end Contents

/-- How far a `Put` has come when it returns: `WaitForCompactionCatchUp` refuses it, the value log
or the WAL cannot be appended to, or it is `FinishWrite` that returns, with an error or without. -/
inductive PutStage where
  | refused
  | claimed
  | inserted
  deriving DecidableEq, Repr

/-- A database with what its next calls return. -/
structure FaultyStore where
  contents : Contents
  /-- For `Clear`, also whether the data is dropped: it fails before that when a flush does not
  complete, and behind that when a new file cannot be written. -/
  clears : List (Status × Bool)
  puts : List (Status × PutStage)
  deriving DecidableEq, Repr

/-- What the next `Put` returns. One that succeeds has inserted its row. -/
def putting (puts : List (Status × PutStage)) : Status × PutStage :=
  let outcome := puts.headD (.ok, .inserted)
  if outcome.1.isOk then (.ok, .inserted) else outcome

/-- `Put`. -/
def Contents.put (contents : Contents) (row : Row) : PutStage → Contents
  | .refused => contents
  | .claimed => contents.claim
  | .inserted => contents.insert row

namespace FaultyStore

/-- What the next `Clear` returns, and whether it drops the data. -/
def clearing (db : FaultyStore) : Status × Bool := db.clears.headD (.ok, true)

/-- `Clear`. -/
def clear (db : FaultyStore) : Status × FaultyStore :=
  let contents :=
    if db.clearing.1.isOk || db.clearing.2 then db.contents.clear else db.contents
  (db.clearing.1, { db with contents := contents, clears := db.clears.tail })

/-- The loop of `RestoreStateImage`. -/
def putRows : List Row → FaultyStore → Status × FaultyStore
  | [], db => (.ok, db)
  | row :: rows, db =>
      let outcome := putting db.puts
      let next :=
        { db with contents := db.contents.put row outcome.2, puts := db.puts.tail }
      if outcome.1.isOk then putRows rows next else (outcome.1, next)

/-- `RestoreStateImage`. An image has less than `2 ^ 63` bytes, and the decoder then stays inside
it. -/
def restoreStateImage (data : Bytes) (db : FaultyStore) : Status × FaultyStore :=
  match decodeStateImage data with
  | .ok rows => if db.clear.1.isOk then db.clear.2.putRows rows else db.clear
  | .corruption message => (.corruption message, db)
  | .outside => (.corruption "", db)

/-- `RaftCommandAdapter`, with an arbitrary `Apply` and `TakeSnapshot`. -/
def machine (apply : Bytes → FaultyStore → FaultyStore) (takeSnapshot : FaultyStore → Bytes) :
    StateMachine FaultyStore where
  apply := apply
  takeSnapshot := takeSnapshot
  applySnapshot := restoreStateImage

end FaultyStore

/-! ## What a failure leaves -/

/-- The rows that are inserted: those in front of the first `Put` that fails, and its own if it
fails behind the insertion. -/
def inserted : List Row → List (Status × PutStage) → List Row
  | [], _ => []
  | row :: rows, puts =>
      match putting puts with
      | (.ok, _) => row :: inserted rows puts.tail
      | (_, .inserted) => [row]
      | _ => []

/-- How many numbers are claimed. -/
def claimed : List Row → List (Status × PutStage) → Nat
  | [], _ => 0
  | _ :: rows, puts =>
      match putting puts with
      | (.ok, _) => claimed rows puts.tail + 1
      | (_, .refused) => 0
      | _ => 1

/-- What rows with the numbers from zero on show for a key: the last one of the key, unless a
tombstone hides it. -/
def shown (tombstones : List RangeTombstone) (rows : List Row) (lastSeq : Nat) (key : Bytes) :
    Option Bytes :=
  (rows.zipIdx.reverse.find? (·.1.1 = key)).bind fun numbered =>
    if covered tombstones key numbered.2 lastSeq then none else some numbered.1.2

/-- The failure does no harm: the image cannot be decoded, `Clear` fails before it drops the data,
or the database held just what the rows show that are inserted behind a `Clear` that succeeds. -/
def Harmless (data : Bytes) (db : FaultyStore) : Prop :=
  ∀ rows, decodeStateImage data = .ok rows → db.clearing.1.isOk = false ∧ db.clearing.2 = false ∨
    ∀ key, db.contents.get key =
      if db.clearing.1.isOk then
        shown db.contents.rangeTombstones (inserted rows db.puts) (claimed rows db.puts) key
      else none

namespace FaultyStore

variable {db : FaultyStore} {data : Bytes}

/-- The versions that rows with consecutive numbers become. -/
def versionsOf (rows : List Row) (first : Nat) : List (Bytes × Nat × Option Bytes) :=
  (rows.zipIdx first).reverse.map fun numbered => (numbered.1.1, numbered.2, some numbered.1.2)

theorem contents_putRows (rows : List Row) (db : FaultyStore) :
    (db.putRows rows).2.contents =
      { db.contents with
        versions := versionsOf (inserted rows db.puts) db.contents.lastSeq ++ db.contents.versions
        lastSeq := db.contents.lastSeq + claimed rows db.puts } := by
  induction rows generalizing db with
  | nil => rfl
  | cons row rows ih =>
    rw [putRows, inserted, claimed]
    generalize outcome : putting db.puts = made
    obtain ⟨status, stage⟩ := made
    cases status with
    | ok =>
      have last : stage = .inserted := by grind [putting, Status.isOk]
      subst last
      rw [if_pos (by rfl), ih]
      simp [Contents.put, Contents.insert, Contents.claim, versionsOf, zipIdx_cons]
      omega
    | _ =>
      cases stage <;>
        simp [Status.isOk, Contents.put, Contents.insert, Contents.claim, versionsOf]

theorem get_putRows (rows : List Row) (fresh : db.contents.versions = [])
    (reset : db.contents.lastSeq = 0) (key : Bytes) :
    (db.putRows rows).2.contents.get key =
      shown db.contents.rangeTombstones (inserted rows db.puts) (claimed rows db.puts) key := by
  rw [contents_putRows, Contents.get, shown, fresh, reset, append_nil, versionsOf, find?_map,
    Function.comp_def]
  simp [Option.bind_map]

/-- Behind a `Clear` that has dropped the data the rows are read that were inserted. -/
theorem get_restoreStateImage (decoded : decodeStateImage data = .ok rows)
    (dropped : ¬(db.clearing.1.isOk = false ∧ db.clearing.2 = false)) (key : Bytes) :
    (db.restoreStateImage data).2.contents.get key =
      if db.clearing.1.isOk then
        shown db.contents.rangeTombstones (inserted rows db.puts) (claimed rows db.puts) key
      else none := by
  have emptied : db.clear.2.contents = db.contents.clear := by
    grind [clear]
  simp only [restoreStateImage, decoded]
  cases cleared : db.clearing.1.isOk with
  | true =>
    rw [show db.clear.1.isOk = true from cleared, if_pos rfl, if_pos rfl]
    rw [get_putRows rows (by rw [emptied]; rfl) (by rw [emptied]; rfl), emptied]
    rfl
  | false =>
    rw [show db.clear.1.isOk = false from cleared, if_neg nofun, if_neg nofun, emptied]
    rfl

/-- A failed install reads as before exactly when the failure does no harm. -/
theorem restoreStateImage_keeps_iff :
    (∀ key, (db.restoreStateImage data).2.contents.get key = db.contents.get key) ↔
      Harmless data db := by
  cases decoded : decodeStateImage data with
  | ok rows =>
    by_cases kept : db.clearing.1.isOk = false ∧ db.clearing.2 = false
    · refine iff_of_true (fun key => ?_) fun _ _ => .inl kept
      simp [restoreStateImage, decoded, clear, kept]
    have reads := get_restoreStateImage decoded kept
    constructor
    · intro same others again
      obtain rfl : rows = others := Decoded.ok.inj (decoded.symm.trans again)
      exact .inr fun key => (same key).symm.trans (reads key)
    · intro harmless key
      rw [reads, (harmless rows decoded).resolve_left kept key]
  | corruption _ | outside =>
    refine iff_of_true (fun key => ?_) fun rows read => ?_
    · simp [restoreStateImage, decoded]
    · simp [decoded] at read

/-- A node that has applied an entry, and has a row. -/
def holding (clears : List (Status × Bool)) (puts : List (Status × PutStage)) :
    Node FaultyStore where
  opts := { nodeId := 1, peers := [] }
  commitIndex := 1
  lastApplied := 1
  machineState := ⟨⟨[([97], 0, some [1])], [], 1⟩, clears, puts⟩

end FaultyStore

end LightKV.FailedInstall
