import LightKV.SSTable

/-!
# Merging tables

`CompactionWorker::DoCompaction` merges its input tables with a heap that holds the head
of each of them: the smallest key first, the highest sequence number first within a key,
the newest file first within that. A version of the key just written is dropped together
with the other versions of that key in its source. After each write the size of the
current output is compared with the target, and a new output may begin; the key just
written is then forgotten, so that an older version of it can open the next output.

What the merge promises is `Merged`: within one output the keys increase strictly, over
all outputs the versions are in the order of key and sequence number, and every input
version has an output version of its key that is at least as new. It needs that inputs
which hold a key at one sequence number agree on the highest type they have there, which
is `TieClosed`.
-/

namespace LightKV

open Versions List Option

/-! ## The worker -/

/-- `IterSource`: an input with its remaining versions. -/
structure Source where
  fileId : Nat
  rest : List Entry
  deriving DecidableEq, Repr

/-- `HeapEntry::operator>`. -/
def heapGreater (first : Entry) (firstFile : Nat) (second : Entry) (secondFile : Nat) : Bool :=
  if first.key ≠ second.key then decide (second.key < first.key)
  else if first.seq ≠ second.seq then decide (first.seq < second.seq)
  else decide (firstFile < secondFile)

/-- The top of the heap: a head, with the source it comes from and the other sources. -/
structure Pick where
  front : List Source
  fileId : Nat
  entry : Entry
  rest : List Entry
  back : List Source
  deriving DecidableEq, Repr

/-- `heap.top()` over the heads of the sources. -/
def pick : List Source → Option Pick
  | [] => none
  | source :: sources =>
      match source.rest, pick sources with
      | [], none => none
      | [], some best => some { best with front := source :: best.front }
      | entry :: rest, none => some ⟨[], source.fileId, entry, rest, sources⟩
      | entry :: rest, some best =>
          if heapGreater entry source.fileId best.entry best.fileId then
            some { best with front := source :: best.front }
          else some ⟨[], source.fileId, entry, rest, sources⟩

/-- The variables of the merge loop. `added` are the outputs registered so far. -/
structure MergeState where
  sources : List Source
  builder : TableBuilder
  lastKey : Bytes
  lastSeqWritten : Nat
  outputCount : Nat
  fileId : Nat
  nextFileId : Nat
  added : List SSTable
  deriving DecidableEq, Repr

/-- The number of versions in sources. -/
def pendingCount (sources : List Source) : Nat :=
  (sources.map fun source => source.rest.length).sum

namespace MergeState

/-- The state after the first `start_new_output`. -/
def start (options : Options) (nextFileId : Nat) (inputs : List SSTable) : MergeState where
  sources := inputs.map fun table => ⟨table.fileId, table.entries⟩
  builder := .new options
  lastKey := []
  lastSeqWritten := 0
  outputCount := 0
  fileId := nextFileId
  nextFileId := nextFileId + 1
  added := []

/-- `start_new_output` behind a write: the current output is registered, which has at
least the version just written, and an empty one takes its place. -/
def startNewOutput (options : Options) (state : MergeState) : MergeState :=
  { state with
    builder := .new options
    lastKey := []
    outputCount := 0
    fileId := state.nextFileId
    nextFileId := state.nextFileId + 1
    added := state.added ++ [state.builder.finish state.fileId] }

/-- An older version of the key just written: its source skips the key. -/
def skip (state : MergeState) (best : Pick) : MergeState :=
  { state with
    sources := best.front ++
      ⟨best.fileId, (best.entry :: best.rest).dropWhile fun entry =>
        decide (entry.key = state.lastKey)⟩ :: best.back }

/-- Write the version and advance its source. -/
def write (state : MergeState) (best : Pick) : MergeState :=
  { state with
    sources := best.front ++ ⟨best.fileId, best.rest⟩ :: best.back
    builder := state.builder.add best.entry
    lastKey := best.entry.key
    lastSeqWritten := best.entry.seq
    outputCount := state.outputCount + 1 }

/-- One round of the loop for the top of the heap. -/
def round (options : Options) (target oldestSnapshot : Nat) (state : MergeState) (best : Pick) :
    MergeState :=
  if state.lastKey ≠ [] ∧ best.entry.key = state.lastKey ∧
      state.lastSeqWritten ≤ oldestSnapshot then
    state.skip best
  else if target ≤ (state.write best).builder.fileSize then
    (state.write best).startNewOutput options
  else state.write best

/-- The loop. Every round takes a version off a source, so their number is enough fuel. -/
def loop (options : Options) (target oldestSnapshot : Nat) : Nat → MergeState → MergeState
  | 0, state => state
  | fuel + 1, state =>
      match pick state.sources with
      | none => state
      | some best =>
          loop options target oldestSnapshot fuel (state.round options target oldestSnapshot best)

/-- What every round keeps, the loop keeps. -/
theorem loop_keeps {options : Options} {target oldestSnapshot : Nat} {P : MergeState → Prop}
    (round : ∀ {state best}, pick state.sources = some best → P state →
      P (state.round options target oldestSnapshot best))
    {state : MergeState} (holds : P state) (fuel : Nat) :
    P (state.loop options target oldestSnapshot fuel) := by
  induction fuel generalizing state with
  | zero => exact holds
  | succ _ ih =>
    unfold loop
    cases picked : pick state.sources with
    | none => exact holds
    | some _ => exact ih (round picked holds)

/-- The number of versions the sources still hold. -/
def remaining (state : MergeState) : Nat := pendingCount state.sources

end MergeState

/-- The size at which an output is closed. -/
def targetFileSize (options : Options) (outputLevel : Nat) : Nat :=
  let base := options.memtableSize * options.levelMultiplier
  let scaled := if outputLevel > 1 then base * options.levelMultiplier ^ (outputLevel - 1) / 10
    else base
  max scaled (2 * 1024 * 1024)

/-- What a compaction leaves: its status, the registered outputs, the files it wrote and
the next file number. -/
structure CompactionResult where
  status : Status
  added : List SSTable
  written : List SSTable
  nextFileId : Nat
  deriving DecidableEq, Repr

/-- The body of `CompactionWorker::DoCompaction` for a given output size. An output without
versions can only be the last one; it makes the whole compaction fail. -/
def compactTo (options : Options) (target oldestSnapshot nextFileId : Nat)
    (inputs : List SSTable) : CompactionResult :=
  if inputs.isEmpty then ⟨.ok, [], [], nextFileId⟩
  else
    let start := MergeState.start options nextFileId inputs
    let state := start.loop options target oldestSnapshot start.remaining
    let written := state.added ++ [state.builder.finish state.fileId]
    if state.outputCount = 0 then
      ⟨.corruption ("compaction produced no usable output: output file " ++
        toString state.fileId ++ ".sst is empty; the merge produced nothing for its inputs"),
        [], written, state.nextFileId⟩
    else ⟨.ok, written, written, state.nextFileId⟩

/-- `CompactionWorker::DoCompaction`. -/
def doCompaction (options : Options) (oldestSnapshot nextFileId : Nat) (inputs : List SSTable)
    (outputLevel : Nat) : CompactionResult :=
  compactTo options (targetFileSize options outputLevel) oldestSnapshot nextFileId inputs

/-! ## The top of the heap -/

/-- Order by key and sequence number, which is all the heap looks at within a key. -/
abbrev SeqBefore : Entry → Entry → Prop := Before Entry.key Entry.seq

/-- Versions in the order of their ranks are in the order of their sequence numbers. -/
theorem seqBefore_of_before (before : Before Entry.key Entry.rank first second) :
    SeqBefore first second := by
  rcases before with below | ⟨same, newer⟩
  · exact .inl below
  · exact .inr ⟨same, Entry.seq_le_of_rank_le newer⟩

theorem seqBefore_of_not_heapGreater
    (kept : heapGreater first firstFile second secondFile = false) : SeqBefore first second := by
  unfold heapGreater at kept
  split at kept
  · rename_i different
    have not_below := of_decide_eq_false kept
    exact .inl (lt_of_le_of_ne (le_of_not_gt not_below) different)
  rename_i same
  have same := not_not.mp same
  split at kept
  · have not_older := of_decide_eq_false kept
    exact .inr ⟨same, by omega⟩
  · exact .inr ⟨same, by omega⟩

theorem seqBefore_of_heapGreater (replaced : heapGreater first firstFile second secondFile = true) :
    SeqBefore second first := by
  unfold heapGreater at replaced
  split at replaced
  · exact .inl (of_decide_eq_true replaced)
  rename_i same
  have same := not_not.mp same
  split at replaced
  · have older := of_decide_eq_true replaced
    exact .inr ⟨same.symm, by omega⟩
  · exact .inr ⟨same.symm, by omega⟩

section

variable (picked : pick sources = some best)
include picked

/-- The picked version is the head of a source, and the other sources are unchanged. -/
theorem pick_split :
    sources = best.front ++ ⟨best.fileId, best.entry :: best.rest⟩ :: best.back := by
  induction sources generalizing best with
  | nil => simp [pick] at picked
  | cons source sources ih =>
    obtain ⟨_, rest⟩ := source
    unfold pick at picked
    cases rest with
    | nil =>
      cases later : pick sources with
      | none => simp [later] at picked
      | some _ =>
        simp only [later, some.injEq] at picked
        subst picked
        simpa using ih later
    | cons _ _ =>
      cases later : pick sources with
      | none =>
        simp only [later, some.injEq] at picked
        subst picked
        rfl
      | some _ =>
        simp only [later] at picked
        split at picked
        · simp only [some.injEq] at picked
          subst picked
          simpa using ih later
        · simp only [some.injEq] at picked
          subst picked
          rfl

theorem picked_mem : ⟨best.fileId, best.entry :: best.rest⟩ ∈ sources := by
  rw [pick_split picked]
  simp

/-- With the picked source exchanged, a source is the new one or was there before. -/
theorem mem_of_exchanged (member : source ∈ best.front ++ ⟨best.fileId, shorter⟩ :: best.back) :
    source = ⟨best.fileId, shorter⟩ ∨ source ∈ sources := by
  rw [pick_split picked]
  simp only [mem_append, mem_cons] at member ⊢
  tauto

/-- What holds of the sources and of the new one holds of all behind the exchange. -/
theorem forall_exchanged {P : Source → Prop}
    (all : ∀ source ∈ sources, P source) (new : P ⟨best.fileId, shorter⟩) :
    ∀ source ∈ best.front ++ ⟨best.fileId, shorter⟩ :: best.back, P source := by
  intro source member
  rcases mem_of_exchanged picked member with rfl | old
  · exact new
  · exact all source old

/-- What the sources hold before the exchange is taken off or still there. -/
theorem mem_exchanged (split : best.entry :: best.rest = taken ++ shorter) :
    (∃ source ∈ sources, entry ∈ source.rest) ↔ entry ∈ taken ∨
      ∃ source ∈ best.front ++ ⟨best.fileId, shorter⟩ :: best.back, entry ∈ source.rest := by
  rw [pick_split picked]
  simp only [split, mem_append, mem_cons, or_and_right, exists_or, exists_eq_left]
  exact (or_congr_right or_assoc).trans or_left_comm

end

theorem rest_eq_nil_of_pick (finished : pick sources = none) :
    ∀ source ∈ sources, source.rest = [] := by
  induction sources with
  | nil => simp
  | cons source sources ih =>
    obtain ⟨_, rest⟩ := source
    unfold pick at finished
    cases rest with
    | nil =>
      cases later : pick sources with
      | none =>
        intro other member
        rcases mem_cons.mp member with rfl | inside
        · rfl
        · exact ih later other inside
      | some _ => simp [later] at finished
    | cons _ _ =>
      cases later : pick sources with
      | none => simp [later] at finished
      | some _ =>
        simp only [later] at finished
        split at finished <;> simp at finished

theorem pick_le_heads (picked : pick sources = some best) :
    ∀ source ∈ sources, ∀ head rest, source.rest = head :: rest → SeqBefore best.entry head := by
  induction sources generalizing best with
  | nil => simp
  | cons source sources ih =>
    obtain ⟨_, versions⟩ := source
    unfold pick at picked
    intro other member head rest head_eq
    cases versions with
    | nil =>
      cases later : pick sources with
      | none => simp [later] at picked
      | some _ =>
        simp only [later, some.injEq] at picked
        subst picked
        rcases mem_cons.mp member with rfl | inside
        · simp at head_eq
        · exact ih later other inside head rest head_eq
    | cons entry _ =>
      cases later : pick sources with
      | none =>
        simp only [later, some.injEq] at picked
        subst picked
        rcases mem_cons.mp member with rfl | inside
        · simp only [cons.injEq] at head_eq
          exact head_eq.1 ▸ Before.refl
        · simp [rest_eq_nil_of_pick later other inside] at head_eq
      | some _ =>
        simp only [later] at picked
        split at picked
        · rename_i replaced
          simp only [some.injEq] at picked
          subst picked
          rcases mem_cons.mp member with rfl | inside
          · simp only [cons.injEq] at head_eq
            exact head_eq.1 ▸ seqBefore_of_heapGreater replaced
          · exact ih later other inside head rest head_eq
        · rename_i kept
          simp only [some.injEq] at picked
          subst picked
          have first := seqBefore_of_not_heapGreater (Bool.eq_false_iff.mpr kept)
          rcases mem_cons.mp member with rfl | inside
          · simp only [cons.injEq] at head_eq
            exact head_eq.1 ▸ Before.refl
          · exact first.trans (ih later other inside head rest head_eq)

end LightKV
