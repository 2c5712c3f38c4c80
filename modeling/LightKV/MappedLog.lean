import LightKV.Runs
import LightKV.TableBuilder

/-!
# Appending to a mapped file

`WALWriter` and `VLog` write through a mapping of the file and double the file when a record and
4096 bytes more do not fit. The model has the sizes: where the mapping ends, where the next record
begins and how many bytes a call writes there.

Three things are not checked. The file is doubled once, however large the record is. A growth that
fails leaves no mapping behind, and the next record that fits is written nevertheless. The sizes
in a record are cast to 32 bits, and so is their sum, by which the position moves on.
-/

namespace LightKV

open Runs

/-- The calls by the sizes of their arguments. -/
inductive AppendCall where
  /-- `WALWriter::Append`, and `WALWriter::AppendRangeDelete` with its two keys. -/
  | record (first second : Nat)
  /-- `WALWriter::AppendBatch`: how many operations there are besides the first one, and the fields
  of all of them. Without any operation it returns at once. -/
  | batch (others : Nat) (fields : List Nat)
  /-- `VLog::Append`. -/
  | value (size : Nat)
  deriving DecidableEq, Repr

namespace AppendCall

/-- Fields behind their lengths, with what a cast leaves of each size. -/
def fieldsSize (cast : Nat → Nat) (fields : List Nat) : Nat :=
  (fields.map fun size => varintLength (cast size) + cast size).sum

/-- The length of a record, with what a cast leaves of each size. -/
def lengthWith (cast : Nat → Nat) : AppendCall → Nat
  | .record first second => 1 + fieldsSize cast [first, second] + 8
  | .batch others fields =>
      1 + varintLength (cast (others + 1)) + (others + 1) + fieldsSize cast fields + 8
  | .value size => cast size

/-- The length of the record. -/
def length (call : AppendCall) : Nat :=
  call.lengthWith id

/-- The bits of a size. -/
def width : AppendCall → Nat
  | .value _ => 64
  | _ => 32

/-- The checksum and the length in front of the record; the value log has neither. -/
def header : AppendCall → Nat
  | .value _ => 0
  | _ => 8

/-- How many bytes are written for the record. -/
def stored (call : AppendCall) : Nat :=
  call.lengthWith (· % 2 ^ call.width)

/-- `record_len`. -/
def recordLen (call : AppendCall) : Nat :=
  call.stored % 2 ^ call.width

/-- `total`, by which the position moves on. -/
def total (call : AppendCall) : Nat :=
  (call.header + call.recordLen) % 2 ^ call.width

theorem fieldsSize_cast (short : fieldsSize id fields < bound) :
    fieldsSize (· % bound) fields = fieldsSize id fields := by
  induction fields with
  | nil => rfl
  | cons size fields ih =>
    simp only [fieldsSize, List.map_cons, List.sum_cons, id] at short ih ⊢
    rw [ih (by omega), Nat.mod_eq_of_lt (by omega)]

/-- Nothing is cut off a record whose length fits. -/
theorem stored_eq {call : AppendCall} (short : call.header + call.length < 2 ^ call.width) :
    call.stored = call.length ∧ call.recordLen = call.length ∧
      call.total = call.header + call.length := by
  have stored_eq : call.stored = call.length := by
    cases call with
    | record _ _ =>
      simp only [length, lengthWith] at short
      rw [stored, lengthWith, fieldsSize_cast (by omega)]
      rfl
    | batch others _ =>
      simp only [length, lengthWith] at short
      rw [stored, lengthWith, fieldsSize_cast (by omega), Nat.mod_eq_of_lt (by omega)]
      rfl
    | value _ => exact Nat.mod_eq_of_lt (lt_of_le_of_lt (Nat.le_add_left _ _) short)
  have recordLen_eq : call.recordLen = call.length := by
    rw [recordLen, stored_eq, Nat.mod_eq_of_lt (by omega)]
  exact ⟨stored_eq, recordLen_eq, by rw [total, recordLen_eq, Nat.mod_eq_of_lt short]⟩

end AppendCall

/-- A log: whether there is a mapping, its size, and the position behind the last record. -/
structure MappedLog where
  mapped : Bool
  fileSize : Nat
  writePos : Nat
  deriving DecidableEq, Repr

namespace MappedLog

/-- The call grows the file first. -/
def full (log : MappedLog) (call : AppendCall) : Bool :=
  let need := (log.writePos + call.total + 4096) % 2 ^ 64
  match call with
  | .value _ => log.fileSize < need
  | _ => log.fileSize ≤ need

/-- `GrowFile`, with whether `ftruncate` and `mmap` succeed. The mapping is taken down first. -/
def growFile (log : MappedLog) (grows : Bool) : MappedLog :=
  if grows then ⟨true, log.fileSize * 2 % 2 ^ 64, log.writePos⟩ else { log with mapped := false }

/-- A call, and how many bytes it writes at the position if it returns OK. -/
def append (log : MappedLog) (call : AppendCall) (grows : Bool) : MappedLog × Option Nat :=
  let grown := if log.full call then log.growFile grows else log
  if log.full call && !grows then (grown, none)
  else ({ grown with writePos := (log.writePos + call.total) % 2 ^ 64 },
    some (call.header + call.stored))

/-- One call, with whether the file can grow. -/
def step (log : MappedLog) (event : AppendCall × Bool) : MappedLog :=
  (log.append event.1 event.2).1

/-- A call that returns OK has written its record between the old and the new position, inside the
mapping and with its length; another one has written nothing. -/
def Inside (log : MappedLog) (event : AppendCall × Bool) : Prop :=
  let after := log.step event
  ((log.append event.1 event.2).2 = none → after.writePos = log.writePos) ∧
    ∀ bytes ∈ (log.append event.1 event.2).2, after.mapped = true ∧
      log.writePos + bytes = after.writePos ∧ after.writePos ≤ after.fileSize ∧
      bytes = event.1.header + event.1.length ∧ event.1.recordLen = event.1.length
  deriving Decidable

/-- The record is short, doubling the file once is enough for it, there is a mapping or a new one
is made, and the sum of 64 bits does not wrap. -/
structure Roomy (log : MappedLog) (event : AppendCall × Bool) : Prop where
  short : event.1.header + event.1.length < 2 ^ event.1.width
  doubled : log.full event.1 = true → event.2 = true →
    log.writePos + event.1.header + event.1.length ≤ log.fileSize * 2 % 2 ^ 64
  mapped : log.mapped = true ∨ log.full event.1 = true
  small : log.writePos + event.1.header + event.1.length + 4096 < 2 ^ 64

theorem Roomy.inside {log : MappedLog} (roomy : log.Roomy event) : log.Inside event := by
  obtain ⟨call, grows⟩ := event
  obtain ⟨short, doubled, mapped, small⟩ := roomy
  dsimp only at short doubled mapped small
  obtain ⟨stored_eq, recordLen_eq, total_eq⟩ := AppendCall.stored_eq short
  unfold Inside step append
  cases full : log.full call with
  | false =>
    have found : (log.writePos + call.total + 4096) % 2 ^ 64 ≤ log.fileSize := by
      cases call <;> simp [MappedLog.full] at full <;> omega
    simp [stored_eq, recordLen_eq]
    exact ⟨by simpa [full] using mapped, by omega⟩
  | true =>
    cases grows with
    | false => simp [growFile]
    | true =>
      have room := doubled full rfl
      simp [growFile, stored_eq, recordLen_eq]
      omega

/-- In every run whose calls find room, every call stays inside the mapping. -/
theorem appends_stay_inside (log : MappedLog) (events : List (AppendCall × Bool))
    (roomy : Meets step Roomy log events) : Meets step Inside log events :=
  roomy.imp fun _ _ => Roomy.inside

/-- The batch doubles the file first. -/
theorem appends_stay_inside_records :
    Meets step Inside ⟨true, 2 ^ 26, 0⟩
      [(.record 3 100, true), (.batch 1 [3, 9, 4, 2 ^ 26], true)] :=
  appends_stay_inside _ _ ⟨⟨by decide, by decide +kernel, by decide, by decide⟩,
    ⟨by decide, by decide +kernel, by decide, by decide⟩, trivial⟩

/-- A record of 128 MB in a file of 64 MB, a record behind a growth that failed, a record of 4 GiB,
and a value of more than 128 MB. -/
theorem appends_leave_mapping :
    ¬ Inside ⟨true, 2 ^ 26, 0⟩ (.record 1 (2 ^ 27), true) ∧
      ¬ Meets step Inside ⟨true, 2 ^ 26, 0⟩ [(.record 1 (2 ^ 26), false), (.record 1 1, true)] ∧
      ¬ Inside ⟨true, 2 ^ 26, 0⟩ (.record 1 (2 ^ 32 - 10), true) ∧
      ¬ Inside ⟨true, 2 ^ 26, 0⟩ (.value (2 ^ 27 + 1), true) := by
  decide +kernel

end MappedLog

end LightKV
