import LightKV.RaftNode

/-!
# Log replication

`ReplicateLog` cuts a slice out of the leader's log and `HandleAppendEntries` merges
it into the follower's. The merge keeps an entry whose term agrees with the slice,
cuts the log at the first disagreement, and leaves a longer tail alone when the slice
ends before any disagreement shows. The follower then commits up to
`min(leader_commit, last index)`, and that last index is its own, tail included.

`Keeps` names the indices whose old entry is still there after the merge. The merge
is characterised through it once, and the commit rule of a follower is read off.
-/

namespace LightKV.Raft

open Option
open List hiding count

namespace RaftLog

variable {entry : RaftLogEntry} {log : RaftLog} {rest : List RaftLogEntry}

/-- The entries `ReplicateLog` copies: at most `count` of them from `start` on. -/
def slice (log : RaftLog) (start count : Nat) : List RaftLogEntry :=
  match log.logPos start with
  | none => []
  | some pos => (log.entries.drop pos).take count

/-- One round of the merge loop of `HandleAppendEntries`: an entry of the same term
is skipped, a conflicting one cuts the log, and an entry beyond the end is
appended if it carries the next index. `none` is the rejection of a gap. -/
def appendEntry (log : RaftLog) (entry : RaftLogEntry) : Option RaftLog :=
  if within : log.base ≤ entry.index ∧ entry.index < log.base + log.entries.length then
    if log.getTermForIndex entry.index = entry.term then some log
    else some (log.splice entry within.1 (Nat.le_of_lt within.2))
  else if next : entry.index = log.base + log.entries.length then
    some (log.splice entry (by omega) (Nat.le_of_eq next))
  else none

/-- The merge loop. The flag says whether the whole slice was merged; on a gap the
entries in front of it stay merged. -/
def appendEntries (log : RaftLog) : List RaftLogEntry → RaftLog × Bool
  | [] => (log, true)
  | entry :: rest =>
      match log.appendEntry entry with
      | none => (log, false)
      | some log => appendEntries log rest

/-- The first index of the run of entries of one term that ends at position `pos`. -/
def conflictStart (log : RaftLog) (term : Nat) : Nat → Nat
  | 0 => log.base
  | pos + 1 =>
      if (log.entries[pos]?.map (·.term)) = some term then conflictStart log term pos
      else log.base + (pos + 1)

/-- The last absolute index of an entry of `term`, scanning from `index` on and
stopping at the first entry of a later term; `found` if there is none. -/
def lastIndexOfTerm (term : Nat) : List RaftLogEntry → Nat → Nat → Nat
  | [], _, found => found
  | entry :: rest, index, found =>
      if entry.term = term then lastIndexOfTerm term rest (index + 1) index
      else if term < entry.term then found
      else lastIndexOfTerm term rest (index + 1) found

/-- A copied entry is the one the log stores under the index it carries. -/
theorem entryAt_of_mem_slice (log : RaftLog) (copied : entry ∈ log.slice start count) :
    log.entryAt entry.index = some entry := by
  unfold slice at copied
  split at copied
  · simp at copied
  · obtain ⟨place, stored⟩ := mem_iff_getElem?.mp
      (mem_of_mem_drop (mem_of_mem_take copied))
    have index_eq := log.indexed place entry stored
    rw [log.entryAt_of_base_le (by omega), index_eq, Nat.add_sub_cancel_left, stored]

theorem appendEntry_cases (accepted : log.appendEntry entry = some merged) :
    (merged = log ∧ ∃ kept, log.entryAt entry.index = some kept ∧ kept.term = entry.term) ∨
    (∃ above reached, merged = log.splice entry above reached ∧
      (entry.index = log.lastLogIndex + 1 ∨
        ∃ replaced, log.entryAt entry.index = some replaced ∧ replaced.term ≠ entry.term)) := by
  have next := log.lastLogIndex_succ
  unfold appendEntry at accepted
  split at accepted
  · rename_i within
    obtain ⟨existing, stored⟩ := log.entryAt_isSome within.1 (by omega)
    have term_eq : log.getTermForIndex entry.index = existing.term := by
      simp [getTermForIndex, stored]
    split at accepted
    · exact .inl ⟨(some.inj accepted).symm, existing, stored, by omega⟩
    · exact .inr ⟨_, _, (some.inj accepted).symm, .inr ⟨existing, stored, by omega⟩⟩
  · split at accepted
    · exact .inr ⟨_, _, (some.inj accepted).symm, .inl (by omega)⟩
    · simp at accepted

/-- The slice leaves the old entry at `index` in place: the log reaches that far and
no entry of the slice at or below `index` disagrees with it. -/
def Keeps (log : RaftLog) (slice : List RaftLogEntry) (index : Nat) : Prop :=
  index ≤ log.lastLogIndex ∧
    ∀ entry ∈ slice, entry.index ≤ index →
      ∀ old, log.entryAt entry.index = some old → old.term = entry.term

instance (log : RaftLog) (slice : List RaftLogEntry) (index : Nat) :
    Decidable (log.Keeps slice index) :=
  decidable_of_iff
    (index ≤ log.lastLogIndex ∧ ∀ entry ∈ slice, entry.index ≤ index →
      ∀ old ∈ (log.entryAt entry.index).toList, old.term = entry.term)
    (by simp only [Option.mem_toList, Keeps])

theorem keeps_cons_of_agree (stored : log.entryAt entry.index = some kept)
    (agree : kept.term = entry.term) : log.Keeps (entry :: rest) index ↔ log.Keeps rest index := by
  constructor
  · rintro ⟨reached, agreed⟩
    exact ⟨reached, fun other member => agreed other (mem_cons_of_mem _ member)⟩
  rintro ⟨reached, agreed⟩
  refine ⟨reached, ?_⟩
  intro other member below old held
  rcases mem_cons.mp member with rfl | member
  · rw [stored, some.injEq] at held
    exact held ▸ agree
  · exact agreed other member below old held

/-- Below a splice nothing changes, so the rest of the slice keeps the same entries. -/
theorem keeps_cons_of_lt (above : log.base ≤ entry.index)
    (reached : entry.index ≤ log.base + log.entries.length) (before : index < entry.index) :
    log.Keeps (entry :: rest) index ↔ (log.splice entry above reached).Keeps rest index := by
  have next := log.lastLogIndex_succ
  have same : ∀ other : RaftLogEntry, other.index ≤ index →
      (log.splice entry above reached).entryAt other.index = log.entryAt other.index := by
    intro _ _
    rw [entryAt_splice, if_pos (by omega)]
  constructor
  · rintro ⟨_, agreed⟩
    refine ⟨by rw [lastLogIndex_splice]; omega, ?_⟩
    intro other member below old held
    rw [same other below] at held
    exact agreed other (mem_cons_of_mem _ member) below old held
  rintro ⟨_, agreed⟩
  refine ⟨by omega, ?_⟩
  intro other member below old held
  rcases mem_cons.mp member with rfl | member
  · omega
  · rw [← same other below] at held
    exact agreed other member below old held

theorem not_keeps_of_splice (from_entry : entry.index ≤ index)
    (spliced : entry.index = log.lastLogIndex + 1 ∨ ∃ replaced, log.entryAt entry.index = some
      replaced ∧ replaced.term ≠ entry.term) : ¬ log.Keeps (entry :: rest) index := by
  rintro ⟨_, agreed⟩
  rcases spliced with _ | ⟨replaced, stored, different⟩
  · omega
  · exact different (agreed entry mem_cons_self from_entry replaced stored)

/-- The merge, index by index: a kept index still holds its old entry, and every
other index of the new log holds the slice's entry for it. The induction is on
the slice; each merged entry either changes nothing or moves the boundary
between the two cases down to its own index. -/
theorem appendEntries_exact (log : RaftLog) {slice : List RaftLogEntry}
    (merged : (log.appendEntries slice).2 = true) (index : Nat) :
    (log.Keeps slice index →
      index ≤ (log.appendEntries slice).1.lastLogIndex ∧
        (log.appendEntries slice).1.entryAt index = log.entryAt index) ∧
    (¬ log.Keeps slice index → index ≤ (log.appendEntries slice).1.lastLogIndex →
      ∃ entry ∈ slice, entry.index = index ∧
        (log.appendEntries slice).1.entryAt index = some entry) := by
  induction slice generalizing log with
  | nil =>
    refine ⟨fun keeps => ⟨keeps.1, rfl⟩, ?_⟩
    intro dropped within
    exact absurd ⟨within, by simp⟩ dropped
  | cons entry rest ih =>
    unfold appendEntries at merged ⊢
    cases accepted : log.appendEntry entry with
    | none => simp [accepted] at merged
    | some next =>
      simp only [accepted] at merged ⊢
      obtain ⟨kept_of, dropped_of⟩ := ih next merged
      rcases appendEntry_cases accepted with
        ⟨rfl, _, stored, agree⟩ | ⟨above, reached, rfl, spliced⟩
      · rw [keeps_cons_of_agree stored agree]
        refine ⟨kept_of, ?_⟩
        intro dropped within
        obtain ⟨found, member, facts⟩ := dropped_of dropped within
        exact ⟨found, mem_cons_of_mem _ member, facts⟩
      by_cases before : index < entry.index
      · rw [keeps_cons_of_lt above reached before]
        refine ⟨?_, ?_⟩
        · intro keeps
          obtain ⟨within, same⟩ := kept_of keeps
          exact ⟨within, by rw [same, entryAt_splice, if_pos before]⟩
        · intro dropped within
          obtain ⟨found, member, facts⟩ := dropped_of dropped within
          exact ⟨found, mem_cons_of_mem _ member, facts⟩
      · have gone : ¬ log.Keeps (entry :: rest) index :=
          not_keeps_of_splice (Nat.le_of_not_lt before) spliced
        refine ⟨fun keeps => absurd keeps gone, ?_⟩
        intro _ within
        by_cases keeps : (log.splice entry above reached).Keeps rest index
        · have here : index = entry.index := by
            have reach := keeps.1
            rw [lastLogIndex_splice] at reach
            omega
          refine ⟨entry, mem_cons_self, here.symm, ?_⟩
          rw [(kept_of keeps).2, entryAt_splice, if_neg before, if_pos here]
        · obtain ⟨found, member, facts⟩ := dropped_of keeps within
          exact ⟨found, mem_cons_of_mem _ member, facts⟩

/-- After a complete merge the log holds an entry at the index of the last merged one. -/
theorem appendEntries_stores_last (log : RaftLog)
    (merged : (log.appendEntries (front ++ [last])).2 = true) :
    ∃ entry, (log.appendEntries (front ++ [last])).1.entryAt last.index = some entry := by
  induction front generalizing log with
  | nil =>
    simp only [nil_append, appendEntries] at merged ⊢
    cases accepted : log.appendEntry last with
    | none => simp [accepted] at merged
    | some _ =>
      rcases appendEntry_cases accepted with ⟨same, kept, stored, _⟩ | ⟨_, _, same, _⟩
      · exact ⟨kept, same ▸ stored⟩
      · exact ⟨last, by rw [same, entryAt_splice]; simp⟩
  | cons entry _ ih =>
    rw [cons_append] at merged ⊢
    unfold appendEntries at merged ⊢
    cases accepted : log.appendEntry entry with
    | none => simp [accepted] at merged
    | some next =>
      simp only [accepted] at merged
      exact ih next merged

end RaftLog

namespace Node

variable {σ : Type} (machine : Option (StateMachine σ)) (node : Node σ)

/-! ## The follower -/

/-- The consistency check at `prev_log_index`: `none` if it passes, otherwise the
conflict term and index of the answer. -/
def prevConflict (log : RaftLog) (req : AppendEntriesRequest) : Option (Nat × Nat) :=
  if req.prevLogIndex = 0 then none
  else
    match log.logPos req.prevLogIndex with
    | none => some (0, log.lastLogIndex + 1)
    | some pos =>
        let existing := log.getTermForIndex req.prevLogIndex
        if existing = req.prevLogTerm then none
        else some (existing, log.conflictStart existing pos)

/-- Step 5 of `HandleAppendEntries`. -/
def followCommit (leaderCommit : Nat) : Node σ :=
  if node.commitIndex < leaderCommit then
    applyCommitted machine { node with commitIndex := min leaderCommit node.log.lastLogIndex }
  else node

/-- The end of step 4 of `HandleAppendEntries`: a merged slice is stored and saved,
an empty one changes nothing. -/
def storeEntries (slice : List RaftLogEntry) : Node σ :=
  if slice = [] then node
  else savePersistentState { node with log := (node.log.appendEntries slice).1 }

/-- Steps 4 and 5 of `HandleAppendEntries`: merge the entries and follow the
leader's commit index. A rejected gap is not saved. -/
def mergeEntries (req : AppendEntriesRequest) (resp : AppendEntriesResponse) :
    Node σ × AppendEntriesResponse :=
  let merged := node.log.appendEntries req.entries
  if merged.2 then
    (followCommit machine (node.storeEntries req.entries) req.leaderCommit,
      { resp with term := node.currentTerm, success := true })
  else
    ({ node with log := merged.1 },
      { resp with conflictIndex := merged.1.base + merged.1.entries.length })

/-- Step 2 of `HandleAppendEntries`: whatever its role, the node follows the sender. -/
def followLeader (req : AppendEntriesRequest) : Node σ :=
  { node.becomeFollower req.term with leaderId := req.leaderId }

/-- `HandleAppendEntries`. -/
def handleAppendEntries (req : AppendEntriesRequest) : Node σ × AppendEntriesResponse :=
  if req.term < node.currentTerm then (node, { term := node.currentTerm })
  else if req.prevLogIndex < node.lastSnapshotIndex then
    (node.followLeader req,
      { term := node.currentTerm, conflictIndex := node.lastSnapshotIndex + 1 })
  else
    match prevConflict node.log req with
    | some (conflictTerm, conflictIndex) =>
        (node.followLeader req,
          { term := node.currentTerm
            conflictTerm := conflictTerm
            conflictIndex := conflictIndex })
    | none => mergeEntries machine (node.followLeader req) req { term := node.currentTerm }

/-! ## The leader -/

/-- The request `ReplicateLog` builds for the peer at position `peer`, or `none` when
that peer needs the snapshot. `leaderCommit` is the commit index read when the
round over the peers began. -/
def appendRequest (peer : Nat) (isHeartbeat : Bool) (leaderCommit : Nat) :
    Option AppendEntriesRequest :=
  let nextIdx := node.nextIndex.getD peer 0
  if nextIdx ≤ node.lastSnapshotIndex then none
  else
    some
      { term := node.currentTerm
        leaderId := node.opts.nodeId
        prevLogIndex := nextIdx - 1
        prevLogTerm := node.log.getTermForIndex (nextIdx - 1)
        entries :=
          if isHeartbeat then [] else node.log.slice nextIdx node.opts.maxLogEntriesPerAppend
        leaderCommit := leaderCommit }

/-- The fast back-off of `ReplicateLog` after a refusal. -/
def backOff (log : RaftLog) (nextIdx : Nat) (resp : AppendEntriesResponse) : Nat :=
  if 0 < resp.conflictTerm then
    let last := RaftLog.lastIndexOfTerm resp.conflictTerm log.entries log.base 0
    if 0 < last then last + 1 else resp.conflictIndex
  else if 0 < resp.conflictIndex then resp.conflictIndex
  else if 1 < nextIdx then nextIdx - 1
  else nextIdx

/-- What `ReplicateLog` does with the answer of the peer at position `peer`. -/
def onAppendReply (peer : Nat) (req : AppendEntriesRequest) (resp : AppendEntriesResponse) :
    Node σ :=
  if node.role ≠ .leader ∨ node.currentTerm ≠ req.term then node
  else if node.currentTerm < resp.term then node.becomeFollower resp.term
  else if resp.success then
    match req.entries.getLast? with
    | none => node
    | some entry =>
        { node with
          nextIndex := node.nextIndex.set peer (entry.index + 1)
          matchIndex := node.matchIndex.set peer entry.index }
  else
    { node with
      nextIndex := node.nextIndex.set peer (backOff node.log (node.nextIndex.getD peer 0) resp) }

/-! ## The commit rule of a follower -/

/-- The commit index after step 5. -/
theorem followCommit_log_commit (leaderCommit : Nat) :
    (followCommit machine node leaderCommit).log = node.log ∧
      (followCommit machine node leaderCommit).commitIndex =
        if node.commitIndex < leaderCommit then min leaderCommit node.log.lastLogIndex
        else node.commitIndex := by
  unfold followCommit
  by_cases ahead : node.commitIndex < leaderCommit
  · obtain ⟨_, applied⟩ := applyCommitted_frame machine
      { node with commitIndex := min leaderCommit node.log.lastLogIndex }
    simp only [ahead, if_true, applied, and_self]
  · simp only [ahead, if_false, and_self]

/-- Storing a slice leaves the merged log; only the log changes. -/
theorem storeEntries_log_commit (slice : List RaftLogEntry) :
    (node.storeEntries slice).log = (node.log.appendEntries slice).1 ∧
      (node.storeEntries slice).commitIndex = node.commitIndex := by
  unfold storeEntries
  by_cases empty : slice = []
  · rw [empty]
    exact ⟨rfl, rfl⟩
  · rw [if_neg empty]
    exact ⟨rfl, rfl⟩

variable {machine node} {req : AppendEntriesRequest}

@[simp] theorem followLeader_log : (node.followLeader req).log = node.log := rfl

/-- A merge that answers success went through the whole slice. -/
theorem mergeEntries_success (unanswered : resp.success = false)
    (answered : (mergeEntries machine node req resp).2.success = true) :
    (node.log.appendEntries req.entries).2 = true ∧
      (mergeEntries machine node req resp).1 =
        followCommit machine (node.storeEntries req.entries) req.leaderCommit := by
  unfold mergeEntries at answered ⊢
  cases merged : (node.log.appendEntries req.entries).2 with
  | false => simp [merged, unanswered] at answered
  | true => simp [merged]

/-- A successful answer means the whole slice was merged; the log and the commit
index are then those of the merge and of step 5. -/
theorem handleAppendEntries_success
    (answered : (handleAppendEntries machine node req).2.success = true) :
    (node.log.appendEntries req.entries).2 = true ∧
      (handleAppendEntries machine node req).1.log = (node.log.appendEntries req.entries).1 ∧
      (handleAppendEntries machine node req).1.commitIndex =
        if node.commitIndex < req.leaderCommit then
          min req.leaderCommit (node.log.appendEntries req.entries).1.lastLogIndex
        else node.commitIndex := by
  unfold handleAppendEntries at answered ⊢
  by_cases stale : req.term < node.currentTerm
  · simp [stale] at answered
  rw [if_neg stale] at answered ⊢
  by_cases snapshotted : req.prevLogIndex < node.lastSnapshotIndex
  · simp [snapshotted] at answered
  rw [if_neg snapshotted] at answered ⊢
  cases conflict : prevConflict node.log req with
  | some _ => simp [conflict] at answered
  | none =>
    rw [conflict] at answered
    obtain ⟨merged, followed⟩ := mergeEntries_success rfl answered
    obtain ⟨log_eq, commit_eq⟩ := storeEntries_log_commit (node.followLeader req) req.entries
    obtain ⟨final_log, final_commit⟩ := followCommit_log_commit machine
      ((node.followLeader req).storeEntries req.entries) req.leaderCommit
    rw [followed, final_log, final_commit, log_eq, commit_eq]
    exact ⟨merged, rfl, rfl⟩

/-- `req` is a request `ReplicateLog` can build from the log `leader`. -/
structure BuiltFrom (leader : RaftLog) (maxEntries : Nat) (req : AppendEntriesRequest) : Prop where
  prevTerm : req.prevLogTerm = leader.getTermForIndex req.prevLogIndex
  entries : ∃ count ≤ maxEntries, req.entries = leader.slice (req.prevLogIndex + 1) count
  commit : req.leaderCommit ≤ leader.lastLogIndex

/-- The requests of the model are of that kind, as long as the leader's commit index
is an index of its log. -/
theorem appendRequest_builtFrom {node : Node σ} (committed : leaderCommit ≤ node.log.lastLogIndex)
    (built : node.appendRequest peer isHeartbeat leaderCommit = some req) :
    BuiltFrom node.log node.opts.maxLogEntriesPerAppend req := by
  unfold appendRequest at built
  dsimp only at built
  split at built
  · simp at built
  rw [some.injEq] at built
  subst built
  have next : node.nextIndex.getD peer 0 - 1 + 1 = node.nextIndex.getD peer 0 := by omega
  refine ⟨rfl, ?_, committed⟩
  rw [next]
  cases isHeartbeat with
  | true => exact ⟨0, Nat.zero_le _, by simp [RaftLog.slice]; split <;> rfl⟩
  | false => exact ⟨_, le_refl _, rfl⟩

/-- Both logs hold `index`, with the same term and data. -/
def AgreeAt (leader follower : RaftLog) (index : Nat) : Prop :=
  ∃ theirs ours, leader.entryAt index = some theirs ∧ follower.entryAt index = some ours ∧
    theirs.term = ours.term ∧ theirs.data = ours.data

/-- The follower's own entries that step 5 is about to commit agree with the leader:
those above its commit index, up to `leader_commit`, which no entry of the slice
replaces. -/
def KeptAgree (leader : RaftLog) (node : Node σ) (req : AppendEntriesRequest) : Prop :=
  ∀ index, node.commitIndex < index → index ≤ req.leaderCommit →
    node.log.Keeps req.entries index → AgreeAt leader node.log index

/-- After a successful `HandleAppendEntries`, the newly committed entries are the
leader's exactly when the entries the call kept already were. -/
theorem handleAppendEntries_commits_leader_entries_iff (machine : Option (StateMachine σ))
    (leader : RaftLog) (maxEntries : Nat) (node : Node σ) (req : AppendEntriesRequest)
    (built : BuiltFrom leader maxEntries req)
    (answered : (handleAppendEntries machine node req).2.success = true) :
    (∀ index, node.commitIndex < index →
        index ≤ (handleAppendEntries machine node req).1.commitIndex →
        AgreeAt leader (handleAppendEntries machine node req).1.log index) ↔
      KeptAgree leader node req := by
  obtain ⟨merged, log_eq, commit_eq⟩ := handleAppendEntries_success answered
  obtain ⟨count, _, slice_eq⟩ := built.entries
  rw [log_eq, commit_eq]
  constructor
  · intro agree index fresh below keeps
    obtain ⟨within, same⟩ := (node.log.appendEntries_exact merged index).1 keeps
    obtain ⟨theirs, ours, held, kept, facts⟩ := agree index fresh
      (by rw [if_pos (by omega)]; exact Nat.le_min.mpr ⟨below, within⟩)
    exact ⟨theirs, ours, held, same ▸ kept, facts⟩
  intro kept_agree index fresh below
  have ahead : node.commitIndex < req.leaderCommit := by
    by_contra behind
    rw [if_neg behind] at below
    omega
  rw [if_pos ahead] at below
  obtain ⟨committed, within⟩ := Nat.le_min.mp below
  obtain ⟨kept_of, replaced_of⟩ := node.log.appendEntries_exact merged index
  by_cases keeps : node.log.Keeps req.entries index
  · obtain ⟨theirs, ours, held, kept, facts⟩ := kept_agree index fresh committed keeps
    exact ⟨theirs, ours, held, (kept_of keeps).2 ▸ kept, facts⟩
  · obtain ⟨entry, member, here, stored⟩ := replaced_of keeps within
    have held := leader.entryAt_of_mem_slice (slice_eq ▸ member)
    exact ⟨entry, entry, here ▸ held, stored, rfl, rfl⟩

/-- A leader of term two: one entry of term one, then one of its own. -/
def twoTermLog : RaftLog :=
  (RaftLog.initial.push 1 .command [97]).push 2 .command [98]

/-- A follower that still holds an uncommitted second entry of term one. -/
def staleFollower : Node Unit where
  opts := .ofThree 2
  currentTerm := 2
  log := (RaftLog.initial.push 1 .command [97]).push 1 .command [120]
  machineState := ()

/-- The slice of one entry that agrees with the follower, sent with commit index two. -/
def agreeingRequest : AppendEntriesRequest where
  term := 2
  leaderId := 1
  prevLogIndex := 0
  prevLogTerm := 0
  entries := twoTermLog.slice 1 1
  leaderCommit := 2

/-- The same follower with the leader's own log. -/
def agreeingFollower : Node Unit := { staleFollower with log := twoTermLog }

/-- On an agreeing pair of logs the kept entries are the leader's, and committing
them is sound. -/
theorem handleAppendEntries_commits_leader_entries_agreeing :
    let after := handleAppendEntries none agreeingFollower agreeingRequest
    after.1.commitIndex = 2 ∧ AgreeAt twoTermLog after.1.log 1 ∧
      AgreeAt twoTermLog after.1.log 2 := by
  have kept_agree : KeptAgree twoTermLog agreeingFollower agreeingRequest := by
    intro index fresh below _
    obtain ⟨entry, stored⟩ := twoTermLog.entryAt_isSome (Nat.zero_le index) below
    exact ⟨entry, entry, stored, stored, rfl, rfl⟩
  have committed := (handleAppendEntries_commits_leader_entries_iff none twoTermLog 1
    agreeingFollower agreeingRequest ⟨by decide, ⟨1, le_refl 1, rfl⟩, by decide⟩
    (by decide)).mpr kept_agree
  have commit_eq :
      (handleAppendEntries none agreeingFollower agreeingRequest).1.commitIndex = 2 := by decide
  exact ⟨commit_eq, committed 1 (by decide) (by rw [commit_eq]; decide),
    committed 2 (by decide) (by rw [commit_eq])⟩

/-- The stale second entry is committed: the follower answers success, raises its
commit index to two, and holds other data there than the leader. -/
theorem handleAppendEntries_commits_stale_entry :
    let after := handleAppendEntries none staleFollower agreeingRequest
    BuiltFrom twoTermLog 1 agreeingRequest ∧ after.2.success = true ∧
      staleFollower.commitIndex < 2 ∧ after.1.commitIndex = 2 ∧
      ¬ AgreeAt twoTermLog after.1.log 2 := by
  refine ⟨⟨by decide, ⟨1, le_refl 1, rfl⟩, by decide⟩, by decide, by decide, by decide, ?_⟩
  rintro ⟨theirs, ours, held, kept, sameTerm, _⟩
  have leader_entry : twoTermLog.entryAt 2 =
      some { index := 2, term := 2, type := .command, data := [98] } := by decide
  have follower_entry : (handleAppendEntries none staleFollower agreeingRequest).1.log.entryAt 2 =
      some { index := 2, term := 1, type := .command, data := [120] } := by decide
  rw [leader_entry, some.injEq] at held
  rw [follower_entry, some.injEq] at kept
  subst held kept
  simp at sameTerm

end Node

end LightKV.Raft
