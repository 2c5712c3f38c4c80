import LightKV.RaftReplication

/-!
# Log matching

Two logs match when an index at which they hold entries of one term is an index up to which
they hold the same entries. A request of `ReplicateLog` carries a slice of the sender's log
together with the term in front of it. If the follower's log matches the sender's, then
accepting the slice keeps it that way: the check at `prev_log_index` makes the logs equal up
to there, an entry of the slice that is skipped is the sender's by the matching, and one that
is stored is the sender's because it was copied from there.

The entry at index zero is a dummy that no request carries, so indices count from one. A log
whose beginning is compacted away is compared from its base on.
-/

namespace LightKV.Raft

open List Option

namespace RaftLog

variable {start : Nat} {slice : List RaftLogEntry}

/-- At an index where both logs hold an entry of one term, the logs are equal up to there, as
far back as both of them reach. -/
def Matching (first second : RaftLog) : Prop :=
  ∀ index theirs ours, 1 ≤ index → first.entryAt index = some theirs →
    second.entryAt index = some ours → theirs.term = ours.term →
      ∀ lower, 1 ≤ lower → first.base ≤ lower → second.base ≤ lower → lower ≤ index →
        second.entryAt lower = first.entryAt lower

/-- The entries carry consecutive indices from `start` on. -/
def Contiguous (start : Nat) (slice : List RaftLogEntry) : Prop :=
  ∀ pos entry, slice[pos]? = some entry → entry.index = start + pos

theorem Contiguous.tail (contiguous : Contiguous start (entry :: slice)) :
    Contiguous (start + 1) slice := by
  intro pos other found
  have index_eq := contiguous (pos + 1) other found
  omega

/-- A slice of a log is contiguous, and holds every index it spans. -/
theorem contiguous_slice {log : RaftLog} {start count : Nat} :
    Contiguous start (log.slice start count) := by
  intro pos entry found
  unfold slice at found
  split at found
  · cases found
  rename_i place located
  have place_eq : start = log.base + place := by
    unfold logPos at located
    split at located
    · cases located
    · split at located
      · cases located
      · have same := some.inj located
        omega
  have within : pos < count := by
    by_contra _
    rw [getElem?_eq_none (by simp only [length_take]; omega)] at found
    cases found
  rw [getElem?_take_of_lt within, getElem?_drop] at found
  have index_eq := log.indexed (place + pos) entry found
  omega

/-- The entry of a contiguous slice under an index that the slice spans. -/
theorem Contiguous.exists_entry (contiguous : Contiguous start slice) (from_start : start ≤ index)
    (within : index < start + slice.length) : ∃ entry ∈ slice, entry.index = index := by
  have bound : index - start < slice.length := by omega
  have found : slice[index - start]? = some (slice[index - start]) := getElem?_eq_getElem bound
  refine ⟨slice[index - start], getElem_mem bound, ?_⟩
  have index_eq := contiguous _ _ found
  omega

/-- The indices of a contiguous slice. -/
theorem Contiguous.index_bounds (contiguous : Contiguous start slice) (member : entry ∈ slice) :
    start ≤ entry.index ∧ entry.index < start + slice.length := by
  obtain ⟨pos, bound, found⟩ := getElem_of_mem member
  have index_eq := contiguous pos entry (by rw [getElem?_eq_getElem bound, found])
  omega

/-- A contiguous slice that starts no later than directly behind the log is merged whole, and
the log then reaches to its end. -/
theorem appendEntries_contiguous (log : RaftLog)
    (contiguous : Contiguous start slice) (above : log.base ≤ start)
    (reached : start ≤ log.lastLogIndex + 1) :
    (log.appendEntries slice).2 = true ∧
      start + slice.length ≤ (log.appendEntries slice).1.lastLogIndex + 1 := by
  induction slice generalizing log start with
  | nil => exact ⟨rfl, reached⟩
  | cons entry _ ih =>
    have next := log.lastLogIndex_succ
    have here : entry.index = start := contiguous 0 entry rfl
    cases accepted : log.appendEntry entry with
    | none =>
      unfold appendEntry at accepted
      split at accepted
      · split at accepted
        · cases accepted
        · cases accepted
      · split at accepted
        · cases accepted
        · omega
    | some merged =>
      have stored : merged.base = log.base ∧ start ≤ merged.lastLogIndex := by
        rcases appendEntry_cases accepted with ⟨same, _, held, _⟩ | ⟨_, _, same, _⟩
        · rw [same]
          exact ⟨rfl, here ▸ (log.entryAt_some held).2.2⟩
        · rw [same, lastLogIndex_splice]
          exact ⟨rfl, le_of_eq here.symm⟩
      have rest := ih merged contiguous.tail (by omega) (by omega)
      simp only [appendEntries, accepted, length_cons]
      exact ⟨rest.1, by omega⟩

theorem appendEntries_of_held {slice : List RaftLogEntry} {log : RaftLog}
    (held : ∀ entry ∈ slice, ∃ kept, log.entryAt entry.index = some kept ∧
      kept.term = entry.term) : log.appendEntries slice = (log, true) := by
  induction slice with
  | nil => rfl
  | cons entry _ ih =>
    obtain ⟨_, stored, same⟩ := held entry mem_cons_self
    have accepted : log.appendEntry entry = some log := by
      obtain ⟨_, above, _⟩ := log.entryAt_some stored
      have next := log.lastLogIndex_succ
      have term_eq : log.getTermForIndex entry.index = entry.term := by
        simp [getTermForIndex, stored, same]
      rw [appendEntry, dif_pos ⟨above, by omega⟩, if_pos term_eq]
    rw [appendEntries, accepted]
    exact ih fun other member => held other (mem_cons_of_mem _ member)

/-- What is kept up to an index is kept up to every lower one. -/
theorem Keeps.lower {log : RaftLog} {index lower : Nat} (keeps : log.Keeps slice index)
    (below : lower ≤ index) : log.Keeps slice lower :=
  ⟨le_trans below keeps.1, fun entry member bound => keeps.2 entry member (le_trans bound below)⟩

end RaftLog

namespace Node

open RaftLog

variable {σ : Type}

/-- The place `prev_log_index` and the entries of the request are a contiguous part of the
sender's log. -/
structure SliceOf (leader : RaftLog) (req : AppendEntriesRequest) : Prop where
  prev : ∃ entry, leader.entryAt req.prevLogIndex = some entry ∧ entry.term = req.prevLogTerm
  entries : ∃ count, req.entries = leader.slice (req.prevLogIndex + 1) count

namespace SliceOf

variable {leader : RaftLog} {req : AppendEntriesRequest}

theorem contiguous (slice : SliceOf leader req) :
    Contiguous (req.prevLogIndex + 1) req.entries := by
  obtain ⟨_, entries_eq⟩ := slice.entries
  rw [entries_eq]
  exact leader.contiguous_slice

theorem entryAt (slice : SliceOf leader req) (member : entry ∈ req.entries) :
    leader.entryAt entry.index = some entry := by
  obtain ⟨_, entries_eq⟩ := slice.entries
  exact leader.entryAt_of_mem_slice (entries_eq ▸ member)

theorem base_le (slice : SliceOf leader req) : leader.base ≤ req.prevLogIndex := by
  obtain ⟨_, held, _⟩ := slice.prev
  exact (leader.entryAt_some held).2.1

end SliceOf

/-- The check at `prev_log_index` passes only if it is zero or the log holds an entry of the
announced term there. -/
theorem held_of_prevConflict {log : RaftLog}
    (passed : prevConflict log req = none) (positive : 0 < req.prevLogIndex) :
    ∃ entry, log.entryAt req.prevLogIndex = some entry ∧ entry.term = req.prevLogTerm := by
  unfold prevConflict at passed
  rw [if_neg (by omega)] at passed
  split at passed
  · cases passed
  rename_i found
  have held : log.entryAt req.prevLogIndex ≠ none := by
    intro missing
    rw [← logPos_eq_none_iff, found] at missing
    cases missing
  obtain ⟨entry, stored⟩ := ne_none_iff_exists'.mp held
  have term_eq : log.getTermForIndex req.prevLogIndex = entry.term := by
    simp [getTermForIndex, stored]
  dsimp only at passed
  split at passed
  · exact ⟨entry, stored, by omega⟩
  · cases passed

section Matching

variable {leader log : RaftLog} {req : AppendEntriesRequest}

theorem merged_of_prevConflict (based : log.base = 0) (slice : SliceOf leader req)
    (passed : prevConflict log req = none) :
    (log.appendEntries req.entries).2 = true ∧
      req.prevLogIndex + req.entries.length ≤ (log.appendEntries req.entries).1.lastLogIndex := by
  have reached : req.prevLogIndex + 1 ≤ log.lastLogIndex + 1 := by
    rcases Nat.eq_zero_or_pos req.prevLogIndex with _ | positive
    · omega
    · obtain ⟨_, stored, _⟩ := held_of_prevConflict passed positive
      have within := (log.entryAt_some stored).2.2
      omega
  obtain ⟨merged, _⟩ := appendEntries_contiguous log slice.contiguous (by omega) reached
  exact ⟨merged, by omega⟩

section

variable (matching : leader.Matching log) (based : log.base = 0) (slice : SliceOf leader req)
include matching based slice

/-- An entry of the slice that agrees with the log keeps everything up to it. -/
theorem keeps_of_agree (member : entry ∈ req.entries)
    (stored : log.entryAt entry.index = some kept) (agree : kept.term = entry.term) :
    log.Keeps req.entries entry.index := by
  refine ⟨(log.entryAt_some stored).2.2, ?_⟩
  intro other sent below _ held
  have first := (slice.contiguous.index_bounds sent).1
  have lower := matching entry.index entry kept
    (by have := slice.contiguous.index_bounds member; omega) (slice.entryAt member) stored
    agree.symm other.index (by omega) (by have := slice.base_le; omega) (by omega) below
  rw [held, slice.entryAt sent, some.injEq] at lower
  rw [lower]

variable (passed : prevConflict log req = none)
include passed

/-- Behind the check at `prev_log_index` the logs are equal up to there. -/
theorem entryAt_eq_of_prevConflict {index : Nat} (positive : 1 ≤ index)
    (above : leader.base ≤ index) (below : index ≤ req.prevLogIndex) :
    log.entryAt index = leader.entryAt index := by
  obtain ⟨theirs, held, theirs_term⟩ := slice.prev
  obtain ⟨ours, stored, ours_term⟩ := held_of_prevConflict passed (by omega)
  exact matching req.prevLogIndex theirs ours (by omega) held stored
    (theirs_term.trans ours_term.symm) index positive above (by omega) below

/-- Behind that check, and behind the merge, the logs are equal up to the end of the slice. -/
theorem entryAt_merged {index : Nat} (positive : 1 ≤ index) (above : leader.base ≤ index)
    (below : index ≤ req.prevLogIndex + req.entries.length) :
    (log.appendEntries req.entries).1.entryAt index = leader.entryAt index := by
  obtain ⟨merged, _⟩ := merged_of_prevConflict based slice passed
  obtain ⟨kept_of, replaced_of⟩ := log.appendEntries_exact merged index
  rcases lt_or_ge req.prevLogIndex index with inside | front
  · obtain ⟨entry, member, here⟩ := slice.contiguous.exists_entry inside (by omega)
    subst here
    by_cases keeps : log.Keeps req.entries entry.index
    · -- The old entry agrees with the slice, so the matching makes it the sender's.
      obtain ⟨old, stored⟩ := log.entryAt_isSome (by omega) keeps.1
      have agree := keeps.2 entry member (le_refl _) old stored
      rw [(kept_of keeps).2]
      exact matching entry.index entry old positive (slice.entryAt member) stored agree.symm
        entry.index positive above (by omega) (le_refl _)
    · obtain ⟨_, sent, same, stored⟩ := replaced_of keeps (by omega)
      rw [stored, ← slice.entryAt sent, same]
  · have keeps : log.Keeps req.entries index := by
      obtain ⟨_, stored, _⟩ := held_of_prevConflict passed (by omega)
      refine ⟨le_trans front (log.entryAt_some stored).2.2, ?_⟩
      intro _ member _
      have first := (slice.contiguous.index_bounds member).1
      omega
    rw [(kept_of keeps).2]
    exact entryAt_eq_of_prevConflict matching based slice passed positive above front

/-- The merge keeps the logs matching. -/
theorem matching_merged : leader.Matching (log.appendEntries req.entries).1 := by
  obtain ⟨merged, _⟩ := merged_of_prevConflict based slice passed
  intro index theirs ours positive held stored same lower lower_positive above _ below
  rcases lt_or_ge (req.prevLogIndex + req.entries.length) index with _ | _
  · obtain ⟨kept_of, replaced_of⟩ := log.appendEntries_exact merged index
    by_cases keeps : log.Keeps req.entries index
    · -- A tail behind the slice is the old one, and so is everything in front of it.
      rw [(kept_of keeps).2] at stored
      rw [((log.appendEntries_exact merged lower).1 (keeps.lower below)).2]
      exact matching index theirs ours positive held stored same lower lower_positive above
        (by omega) below
    · obtain ⟨_, member, _, _⟩ :=
        replaced_of keeps ((log.appendEntries req.entries).1.entryAt_some stored).2.2
      have bound := (slice.contiguous.index_bounds member).2
      omega
  · exact entryAt_merged matching based slice passed lower_positive above (by omega)

end

end Matching

/-! ## The handler -/

/-- The three refusals in front of the merge. -/
def refuses (node : Node σ) (req : AppendEntriesRequest) : Bool :=
  decide (req.term < node.currentTerm) || decide (req.prevLogIndex < node.lastSnapshotIndex) ||
    (prevConflict node.log req).isSome

section Handler

variable (machine : Option (StateMachine σ)) {node : Node σ} {req : AppendEntriesRequest}

theorem handleAppendEntries_of_refuses (refused : node.refuses req = true) :
    (handleAppendEntries machine node req).2.success = false ∧
      (handleAppendEntries machine node req).1.log = node.log ∧
      (handleAppendEntries machine node req).1.lastSnapshotIndex = node.lastSnapshotIndex ∧
      node.currentTerm ≤ (handleAppendEntries machine node req).1.currentTerm := by
  unfold handleAppendEntries
  by_cases stale : req.term < node.currentTerm
  · rw [if_pos stale]
    exact ⟨rfl, rfl, rfl, le_refl _⟩
  have current : node.currentTerm ≤ req.term := Nat.le_of_not_lt stale
  rw [if_neg stale]
  by_cases snapshotted : req.prevLogIndex < node.lastSnapshotIndex
  · rw [if_pos snapshotted]
    exact ⟨rfl, rfl, rfl, current⟩
  · rw [if_neg snapshotted]
    cases conflict : prevConflict node.log req with
    | some _ => exact ⟨rfl, rfl, rfl, current⟩
    | none => simp [refuses, stale, snapshotted, conflict] at refused

/-- Otherwise the slice is merged, and the answer says whether all of it was. -/
theorem handleAppendEntries_of_not_refuses (accepted : node.refuses req = false) :
    prevConflict node.log req = none ∧
      (handleAppendEntries machine node req).1.log = (node.log.appendEntries req.entries).1 := by
  simp only [refuses, Bool.or_eq_false_iff, decide_eq_false_iff_not,
    isSome_eq_false_iff, isNone_iff_eq_none] at accepted
  obtain ⟨⟨current, unsnapshotted⟩, passed⟩ := accepted
  rw [handleAppendEntries, if_neg current, if_neg unsnapshotted, passed]
  refine ⟨rfl, ?_⟩
  rw [mergeEntries, followLeader_log]
  cases (node.log.appendEntries req.entries).2 with
  | false => rfl
  | true =>
    rw [if_pos rfl]
    rw [(followCommit_log_commit machine _ _).1, (storeEntries_log_commit _ _).1]
    rfl

/-- A request that repeats `req`, or an earlier one with fewer of its entries. -/
structure Repeats (older req : AppendEntriesRequest) : Prop where
  term : older.term ≤ req.term
  prevLogIndex : older.prevLogIndex = req.prevLogIndex
  prevLogTerm : older.prevLogTerm = req.prevLogTerm
  entries : older.entries <+: req.entries

/-- What is refused is refused again. -/
theorem Repeats.refuses (repeats : Repeats older req) (refused : node.refuses req = true) :
    (handleAppendEntries machine node req).1.refuses older = true := by
  obtain ⟨_, log_eq, snapshot_eq, _⟩ := handleAppendEntries_of_refuses machine refused
  have conflict_eq : prevConflict node.log older = prevConflict node.log req := by
    simp only [prevConflict, repeats.prevLogIndex, repeats.prevLogTerm]
  simp only [Node.refuses, Bool.or_eq_true, decide_eq_true_eq, log_eq, snapshot_eq, conflict_eq,
    repeats.prevLogIndex] at refused ⊢
  rcases refused with (_ | snapshotted) | conflict
  · have earlier := repeats.term
    exact .inl (.inl (by omega))
  · exact .inl (.inr snapshotted)
  · exact .inr conflict

/-- `HandleAppendEntries` and log matching. The follower's log starts at index zero and matches
the sender's, and the request carries a contiguous part of the sender's log. Then the logs
still match behind the call. If it answers success they are equal up to the end of the
slice. No entry that agrees with the slice is removed, and nothing at all if the whole slice
was held. The same request, or an earlier one with fewer entries, changes nothing
afterwards. -/
theorem handleAppendEntries_log_matching (leader : RaftLog) (node : Node σ)
    (based : node.log.base = 0) (matching : leader.Matching node.log)
    (req : AppendEntriesRequest) (slice : SliceOf leader req) :
    let after := handleAppendEntries machine node req
    leader.Matching after.1.log ∧
      (after.2.success = true → ∀ index, 1 ≤ index → leader.base ≤ index →
        index ≤ req.prevLogIndex + req.entries.length →
          after.1.log.entryAt index = leader.entryAt index) ∧
      (∀ entry ∈ req.entries, ∀ kept, node.log.entryAt entry.index = some kept →
        kept.term = entry.term → after.1.log.entryAt entry.index = some kept) ∧
      ((∀ entry ∈ req.entries, ∃ kept, node.log.entryAt entry.index = some kept ∧
          kept.term = entry.term) → after.1.log = node.log) ∧
      ∀ older, Repeats older req →
        (handleAppendEntries machine after.1 older).1.log = after.1.log := by
  dsimp only
  cases refused : node.refuses req with
  | true =>
    obtain ⟨answer, log_eq, _⟩ := handleAppendEntries_of_refuses machine refused
    refine ⟨?_, ?_, ?_, fun _ => log_eq, ?_⟩
    · rw [log_eq]
      exact matching
    · intro success
      rw [answer] at success
      cases success
    · intro entry _ kept stored _
      rw [log_eq]
      exact stored
    · intro older repeats
      exact (handleAppendEntries_of_refuses machine (repeats.refuses machine refused)).2.1
  | false =>
    obtain ⟨passed, log_eq⟩ := handleAppendEntries_of_not_refuses machine refused
    obtain ⟨merged, _⟩ := merged_of_prevConflict based slice passed
    refine ⟨?_, ?_, ?_, ?_, ?_⟩
    · rw [log_eq]
      exact matching_merged matching based slice passed
    · intro _ index positive above below
      rw [log_eq]
      exact entryAt_merged matching based slice passed positive above below
    · intro entry member kept stored agree
      have keeps := keeps_of_agree matching based slice member stored agree
      rw [log_eq, ((node.log.appendEntries_exact merged entry.index).1 keeps).2]
      exact stored
    · intro held
      rw [log_eq, appendEntries_of_held held]
    · intro older repeats
      -- Whatever the second call carries, the merged log holds it already.
      have held : ∀ entry ∈ older.entries, ∃ kept,
          (handleAppendEntries machine node req).1.log.entryAt entry.index = some kept ∧
            kept.term = entry.term := by
        intro entry member
        have sent := repeats.entries.subset member
        obtain ⟨first, last⟩ := slice.contiguous.index_bounds sent
        have lower := slice.base_le
        rw [log_eq, entryAt_merged matching based slice passed (by omega) (by omega) (by omega)]
        exact ⟨entry, slice.entryAt sent, rfl⟩
      cases again : (handleAppendEntries machine node req).1.refuses older with
      | true => exact (handleAppendEntries_of_refuses machine again).2.1
      | false =>
        rw [(handleAppendEntries_of_not_refuses machine again).2, appendEntries_of_held held]

end Handler

/-- The entry of term two, sent to the follower that holds another one there. -/
def conflictingRequest : AppendEntriesRequest where
  term := 2
  leaderId := 1
  prevLogIndex := 1
  prevLogTerm := 1
  entries := twoTermLog.slice 2 1
  leaderCommit := 0

/-- The stale entry is replaced, and the logs are then equal. -/
theorem handleAppendEntries_log_matching_conflict :
    let after := handleAppendEntries none staleFollower conflictingRequest
    after.2.success = true ∧ after.1.log.entryAt 1 = twoTermLog.entryAt 1 ∧
      after.1.log.entryAt 2 = twoTermLog.entryAt 2 := by
  have matching : twoTermLog.Matching staleFollower.log := by
    intro index theirs ours positive held stored same lower lower_positive _ _ below
    have within : index ≤ 2 := (twoTermLog.entryAt_some held).2.2
    obtain rfl | rfl : index = 1 ∨ index = 2 := by omega
    · obtain rfl : lower = 1 := by omega
      decide
    · have their_term : twoTermLog.getTermForIndex 2 = 2 := by decide
      have our_term : staleFollower.log.getTermForIndex 2 = 1 := by decide
      simp only [RaftLog.getTermForIndex, held, stored, map_some, getD_some] at their_term our_term
      omega
  have success : (handleAppendEntries none staleFollower conflictingRequest).2.success = true := by
    decide
  have equal := (handleAppendEntries_log_matching none twoTermLog staleFollower rfl matching
    conflictingRequest ⟨⟨_, rfl, rfl⟩, 1, rfl⟩).2.1 success
  exact ⟨success, equal 1 (by decide) (by decide) (by decide),
    equal 2 (by decide) (by decide) (by decide)⟩

end Node

end LightKV.Raft
