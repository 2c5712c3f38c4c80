import LightKV.Basic

/-!
# The Raft log

`log_` holds the entries from `log_base_` on: the entry at position `i` has the
absolute index `log_base_ + i`. The source keeps that correspondence by checking
each pushed entry, and never leaves the vector empty. Both facts are fields of
`RaftLog`, so every operation below has to re-establish them.

`entryAt` reads the log by absolute index. Each operation is characterised by what
`entryAt` and `lastLogIndex` return after it; later modules use those equations and
do not look at positions again.
-/

namespace LightKV.Raft

open List Option

/-- `RaftEntryType`. -/
inductive RaftEntryType where
  | command
  | confChange
  | noOp
  deriving DecidableEq, Repr

/-- `RaftLogEntry`. -/
structure RaftLogEntry where
  index : Nat := 0
  term : Nat := 0
  type : RaftEntryType := .noOp
  data : Bytes := []
  deriving DecidableEq, Repr

/-- `log_` together with `log_base_`. -/
structure RaftLog where
  base : Nat
  entries : List RaftLogEntry
  nonempty : entries ≠ []
  indexed : ∀ pos entry, entries[pos]? = some entry → entry.index = base + pos
  deriving DecidableEq

namespace RaftLog

variable (log : RaftLog) {index : Nat}

/-- `LogPos`: the position of an absolute index, `none` for `kNoPos`. -/
def logPos (index : Nat) : Option Nat :=
  if index < log.base then none
  else if log.entries.length ≤ index - log.base then none
  else some (index - log.base)

/-- `LastLogIndex`. -/
def lastLogIndex : Nat :=
  log.base + log.entries.length - 1

/-- `GetLastLogTerm`. -/
def lastLogTerm : Nat :=
  (log.entries.getLast log.nonempty).term

/-- The entry stored under an absolute index, if the log still holds one. -/
def entryAt (index : Nat) : Option RaftLogEntry :=
  (log.logPos index).bind fun pos => log.entries[pos]?

/-- `GetLogEntry`: a default entry stands for a missing one. -/
def getLogEntry (index : Nat) : RaftLogEntry :=
  (log.entryAt index).getD {}

/-- `GetTermForIndex`: zero for an index the log does not hold. -/
def getTermForIndex (index : Nat) : Nat :=
  ((log.entryAt index).map (·.term)).getD 0

/-- The log that holds one entry, based at that entry. A fresh node starts from
the dummy entry, and compaction and installation both end in this shape. -/
def single (entry : RaftLogEntry) : RaftLog where
  base := entry.index
  entries := [entry]
  nonempty := by simp
  indexed := by
    intro pos found present
    cases pos with
    | zero => simp only [getElem?_cons_zero, some.injEq] at present; simp [present]
    | succ pos => simp at present

/-- The log of a node that never stored anything: the dummy entry of term zero. -/
def initial : RaftLog := single {}

/-- Cut the log in front of the index of `entry` and store `entry` there. With the
cut at the end of the log this is `push_back`. -/
def splice (log : RaftLog) (entry : RaftLogEntry) (above : log.base ≤ entry.index)
    (reached : entry.index ≤ log.base + log.entries.length) : RaftLog where
  base := log.base
  entries := log.entries.take (entry.index - log.base) ++ [entry]
  nonempty := by simp
  indexed := by
    intro pos found present
    have cut : (log.entries.take (entry.index - log.base)).length = entry.index - log.base := by
      simp only [length_take]
      omega
    rcases Nat.lt_trichotomy pos (entry.index - log.base) with before | here | beyond
    · rw [getElem?_append_left (by omega), getElem?_take_of_lt before] at present
      exact log.indexed pos found present
    · rw [getElem?_append_right (by omega), cut, here, Nat.sub_self] at present
      simp only [getElem?_cons_zero, some.injEq] at present
      subst present
      omega
    · rw [getElem?_eq_none (by rw [length_append, cut]; exact beyond)] at present
      simp at present

/-- The log always holds at least one entry, so its last index is not below its base. -/
theorem base_le_lastLogIndex : log.base ≤ log.lastLogIndex := by
  have positive := length_pos_iff.mpr log.nonempty
  unfold lastLogIndex
  omega

/-- The first index beyond the log. -/
theorem lastLogIndex_succ : log.lastLogIndex + 1 = log.base + log.entries.length := by
  have positive := length_pos_iff.mpr log.nonempty
  unfold lastLogIndex
  omega

/-- `log_.push_back` of an entry that carries the next index. -/
def push (log : RaftLog) (term : Nat) (type : RaftEntryType) (data : Bytes) : RaftLog :=
  log.splice { index := log.lastLogIndex + 1, term := term, type := type, data := data }
    (by have := log.base_le_lastLogIndex; exact Nat.le_succ_of_le this)
    (by rw [← log.lastLogIndex_succ])

theorem entryAt_of_base_le (above : log.base ≤ index) :
    log.entryAt index = log.entries[index - log.base]? := by
  unfold entryAt logPos
  rw [if_neg (by omega)]
  by_cases beyond : log.entries.length ≤ index - log.base <;> simp [beyond]

theorem entryAt_of_lt_base (below : index < log.base) : log.entryAt index = none := by
  simp [entryAt, logPos, below]

theorem entryAt_of_lastLogIndex_lt (beyond : log.lastLogIndex < index) :
    log.entryAt index = none := by
  have next := log.lastLogIndex_succ
  rw [log.entryAt_of_base_le (by omega)]
  exact getElem?_eq_none (by omega)

variable {entry : RaftLogEntry}

/-- A stored entry carries the index it is stored under, and that index lies
between the base and the last index. -/
theorem entryAt_some (stored : log.entryAt index = some entry) :
    entry.index = index ∧ log.base ≤ index ∧ index ≤ log.lastLogIndex := by
  have above : log.base ≤ index := by
    by_contra _
    rw [log.entryAt_of_lt_base (by omega)] at stored
    simp at stored
  have within : index ≤ log.lastLogIndex := by
    by_contra _
    rw [log.entryAt_of_lastLogIndex_lt (by omega)] at stored
    simp at stored
  rw [log.entryAt_of_base_le above] at stored
  have index_eq := log.indexed _ _ stored
  exact ⟨by omega, above, within⟩

/-- Every index from the base to the last one is stored. -/
theorem entryAt_isSome (above : log.base ≤ index) (within : index ≤ log.lastLogIndex) :
    ∃ entry, log.entryAt index = some entry := by
  have next := log.lastLogIndex_succ
  rw [log.entryAt_of_base_le above]
  exact ⟨_, getElem?_eq_getElem (by omega)⟩

theorem mem_entries_of_entryAt {log : RaftLog} (stored : log.entryAt index = some entry) :
    entry ∈ log.entries := by
  rw [log.entryAt_of_base_le (log.entryAt_some stored).2.1] at stored
  exact mem_of_getElem? stored

/-- `logPos` finds a position exactly for the indices the log holds. -/
theorem logPos_eq_none_iff : log.logPos index = none ↔ log.entryAt index = none := by
  constructor
  · intro missing
    simp [entryAt, missing]
  intro missing
  by_contra found
  obtain ⟨_, found⟩ := ne_none_iff_exists'.mp found
  unfold entryAt at missing
  rw [found, bind_some, getElem?_eq_none_iff] at missing
  unfold logPos at found
  split at found
  · simp at found
  · split at found
    · simp at found
    · simp only [some.injEq] at found
      omega

@[simp] theorem lastLogIndex_single : (single entry).lastLogIndex = entry.index := by
  simp [lastLogIndex, single]

/-- A single-entry log holds that entry and nothing else. -/
theorem entryAt_single :
    (single entry).entryAt index = if index = entry.index then some entry else none := by
  by_cases same : index = entry.index
  · subst same
    rw [entryAt_of_base_le _ (by simp [single])]
    simp [single]
  rw [if_neg same]
  by_contra stored
  obtain ⟨_, stored⟩ := ne_none_iff_exists'.mp stored
  have bounds := (single entry).entryAt_some stored
  simp only [single, lastLogIndex, length_cons, length_nil] at bounds
  omega

section Splice

variable (log : RaftLog) (entry : RaftLogEntry) (above : log.base ≤ entry.index)
  (reached : entry.index ≤ log.base + log.entries.length)

/-- After a splice the spliced entry is the last one. -/
@[simp] theorem lastLogIndex_splice :
    (log.splice entry above reached).lastLogIndex = entry.index := by
  simp only [lastLogIndex, splice, length_append, length_take, length_cons, length_nil]
  omega

/-- A splice keeps what lies below the entry, stores the entry, and leaves nothing
above it. -/
theorem entryAt_splice :
    (log.splice entry above reached).entryAt index =
      if index < entry.index then log.entryAt index
      else if index = entry.index then some entry else none := by
  have cut : (log.entries.take (entry.index - log.base)).length = entry.index - log.base := by
    simp only [length_take]
    omega
  rcases lt_trichotomy index entry.index with before | here | beyond
  · rw [if_pos before]
    by_cases below : index < log.base
    · rw [entryAt_of_lt_base _ below, entryAt_of_lt_base _ (by exact below)]
    · have from_base : log.base ≤ index := by omega
      rw [entryAt_of_base_le _ (by exact from_base), entryAt_of_base_le _ from_base]
      simp only [splice]
      rw [getElem?_append_left (by omega), getElem?_take_of_lt (by omega)]
  · subst here
    rw [entryAt_of_base_le _ (by exact above)]
    simp only [splice]
    rw [getElem?_append_right (by omega), cut]
    simp
  · rw [if_neg (by omega), if_neg (by omega)]
    exact entryAt_of_lastLogIndex_lt _ (by rw [lastLogIndex_splice]; exact beyond)

end Splice

@[simp] theorem lastLogIndex_push :
    (log.push term type data).lastLogIndex = log.lastLogIndex + 1 := by
  simp [push]

theorem entryAt_push_of_le (log : RaftLog) (within : index ≤ log.lastLogIndex) :
    (log.push term type data).entryAt index = log.entryAt index := by
  rw [push, entryAt_splice, if_pos (Nat.lt_succ_of_le within)]

theorem entryAt_push_of_some (log : RaftLog) (stored : log.entryAt index = some entry) :
    (log.push term type data).entryAt index = some entry := by
  rw [log.entryAt_push_of_le (log.entryAt_some stored).2.2, stored]

end RaftLog

end LightKV.Raft
