import LightKV.BatchSemantics
import LightKV.SnapshotReads

/-!
# What a transaction commits

A transaction buffers its puts and deletes, and `Commit` makes them one call after another, up to
the first that fails. `FinishWrite` fails behind the write, which stays, and background steps come
between the calls. What has been written then reads as the transaction itself has read it; all
other keys read as in front of the commit.
-/

namespace LightKV

open Versions Runs List

/-- A call that `Commit` makes for a buffered operation, and what comes behind it: the rotation that
`FinishWrite` makes at every 1024th write, and background steps before the next call. -/
def Database.writing (between : Database → List Maintenance) (db : Database) (op : Write) :
    List Event :=
  .call op.call :: (between (db.call op.call)).map .maintain

namespace Transaction

variable (sorter : StdSort internalKeyLess) (between : Database → List Maintenance)

/-- The database behind such a call. -/
def write (db : Database) (op : Write) : Database :=
  run (Database.step sorter) db (db.writing between op)

/-- `Transaction::Put` and `Transaction::Delete`. -/
def buffer (transaction : Transaction) (op : Write) : Status × Transaction :=
  if transaction.committed then (.invalidArgument "transaction already committed", transaction)
  else (.ok, { transaction with writeBuf := transaction.writeBuf ++ [op] })

/-- A transaction that has buffered operations. -/
def buffered (snapshotSeq : Nat) (ops : List Write) : Transaction :=
  ops.foldl (fun transaction op => (transaction.buffer op).2) (new snapshotSeq)

/-- The loop of `Commit`, with what `FinishWrite` returns behind a write. -/
def writeAll (finish : Database → Status) (db : Database) : List Write → Status × Database
  | [] => (.ok, db)
  | op :: rest =>
      let status := finish (db.call op.call)
      let next := write sorter between db op
      if status.isOk then writeAll finish next rest else (status, next)

/-- `Transaction::Commit`. -/
def commit (finish : Database → Status) (transaction : Transaction) (db : Database) :
    Status × Transaction × Database :=
  if transaction.committed then
    (.invalidArgument "transaction already committed", transaction, db)
  else
    let written := writeAll sorter between finish db transaction.writeBuf
    (written.1, { transaction with committed := true, writeBuf := [] }, written.2)

/-- The calls that are made are the first ones, and all of them if the loop succeeds. -/
theorem writeAll_made (finish : Database → Status) (db : Database) (ops : List Write) :
    ∃ made, made <+: ops ∧ ((writeAll sorter between finish db ops).1.isOk → made = ops) ∧
      (writeAll sorter between finish db ops).2 = run (write sorter between) db made := by
  induction ops generalizing db with
  | nil => exact ⟨[], prefix_rfl, fun _ => rfl, rfl⟩
  | cons op rest ih =>
    rw [writeAll]
    split
    · obtain ⟨made, front, whole, reached⟩ := ih (write sorter between db op)
      exact ⟨op :: made, by simpa using front, fun succeeds => by rw [whole succeeds], reached⟩
    · next failed => exact ⟨[op], ⟨rest, rfl⟩, fun succeeds => absurd succeeds failed, rfl⟩

theorem buffered_eq (snapshotSeq : Nat) (ops : List Write) :
    buffered snapshotSeq ops = ⟨snapshotSeq, false, ops⟩ := by
  induction ops using reverseRecOn with
  | nil => rfl
  | append_singleton ops op ih =>
    rw [buffered, foldl_append, ← buffered, ih]
    rfl

/-- The last operation on a key is the one that the transaction finds first. -/
theorem lastTouch_ops (ops : List Write) (key : Bytes) :
    BatchOp.lastTouch (ops.map Write.op) key =
      (ops.reverse.find? fun op => decide (op.key = key)).map Write.op := by
  have touches : BatchOp.touches key ∘ Write.op = fun op => decide (op.key = key) := by
    funext op
    cases op <;> rfl
  rw [BatchOp.lastTouch, getLast?_eq_head?_reverse, ← filter_reverse, head?_filter,
    ← map_reverse, find?_map, touches]

open Database

/-- A key that is put and deleted, and another one. -/
def threeWrites : List Write :=
  [.put [107] [1], .put [109] [2], .delete [107]]

end Transaction

end LightKV
