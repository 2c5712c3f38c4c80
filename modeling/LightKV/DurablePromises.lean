import LightKV.ElectionSafety
import LightKV.RaftFiles
import LightKV.Runs

/-!
# Promises and failed saves

A node makes three kinds of promise: a granted vote, an accepted AppendEntries request and an
index returned from `Propose`. Each is saved by the last `SavePersistentState` of its section,
whose status no section looks at. If that save fails the promise is made nevertheless, and a
restart forgets it.

`Promises` records what was promised, and which of the promised entries a leader has replaced
since. A section runs in memory as if its saves had succeeded, since nothing but a start reads
the file; what is on the disk afterwards is given by the saves that did. When the last save of
each promising section succeeds, the file never falls behind a promise.
-/

namespace LightKV.Raft

open Option Section DiskWrite RaftLog Disk
open List hiding after count

namespace Disk

/-- The replacements that succeed. `outcomes` says how the saves of the state file end, one after
the other; the snapshot file is saved, and so is whatever has no outcome. -/
def survive : List DiskWrite → List Bool → List DiskWrite
  | [], _ => []
  | .snapshot file :: rest, outcomes => .snapshot file :: survive rest outcomes
  | .state file :: rest, outcomes =>
      if outcomes.headD true then .state file :: survive rest outcomes.tail
      else survive rest outcomes.tail

/-- The number of saves of the state file. -/
def stateSaves : List DiskWrite → Nat
  | [] => 0
  | .snapshot _ :: rest => stateSaves rest
  | .state _ :: rest => stateSaves rest + 1

/-- The last save of the state file succeeds. -/
def lastSaved (writes : List DiskWrite) (outcomes : List Bool) : Bool :=
  outcomes.getD (stateSaves writes - 1) true

theorem survive_subset (writes : List DiskWrite) (outcomes : List Bool) :
    survive writes outcomes ⊆ writes := by
  induction writes generalizing outcomes with
  | nil => exact List.Subset.refl _
  | cons first _ ih =>
    cases first with
    | snapshot _ => exact cons_subset_cons _ (ih outcomes)
    | state _ =>
      rw [survive]
      split
      · exact cons_subset_cons _ (ih outcomes.tail)
      · exact subset_cons_of_subset _ (ih outcomes.tail)

theorem stateSaves_append : stateSaves (front ++ rest) = stateSaves front + stateSaves rest := by
  induction front with
  | nil => exact (zero_add _).symm
  | cons first _ ih =>
    cases first with
    | snapshot _ => exact ih
    | state _ =>
      rw [cons_append, stateSaves, stateSaves]
      omega

theorem stateFile_of_lastSaved (disk : Disk)
    (saved : lastSaved (front ++ [.state file]) outcomes = true) :
    (disk.writeAll (survive (front ++ [.state file]) outcomes)).stateFile = some file := by
  induction front generalizing disk outcomes with
  | nil =>
    have head : outcomes.headD true = true := by
      rw [headD_eq_head?_getD, head?_eq_getElem?]
      exact saved
    rw [nil_append, survive, if_pos head]
    rfl
  | cons first front ih =>
    cases first with
    | snapshot _ => exact ih _ saved
    | state _ =>
      have later : lastSaved (front ++ [.state file]) outcomes.tail = true := by
        rw [lastSaved, cons_append, stateSaves, stateSaves_append] at saved
        rw [lastSaved, stateSaves_append, getD_eq_getElem?_getD, getElem?_tail]
        exact saved
      rw [cons_append, survive]
      split <;> exact ih _ later

/-- The state file after some replacements is the old one or one of them. -/
theorem stateFile_writeAll (disk : Disk) (writes : List DiskWrite) :
    (disk.writeAll writes).stateFile = disk.stateFile ∨
      ∃ file, DiskWrite.state file ∈ writes ∧ (disk.writeAll writes).stateFile = some file := by
  induction writes generalizing disk with
  | nil => exact .inl rfl
  | cons first _ ih =>
    rcases ih (disk.write first) with same | ⟨file, member, found⟩
    · cases first with
      | snapshot _ => exact .inl same
      | state file => exact .inr ⟨file, mem_cons_self, same⟩
    · exact .inr ⟨file, mem_cons_of_mem _ member, found⟩

end Disk

/-! ## What a section promises -/

namespace Section

open Node

variable {σ : Type}

/-- The vote that a section grants: its term and its candidate. -/
def grants (node : Node σ) : Section → Option (Nat × Nat)
  | .requestVote req =>
      if (node.handleRequestVote req).2.voteGranted then some (req.term, req.candidateId)
      else none
  | _ => none

/-- The entries that a section acknowledges. -/
def acks (machine : Option (StateMachine σ)) (node : Node σ) : Section → List RaftLogEntry
  | .appendEntries req =>
      if (handleAppendEntries machine node req).2.success then
        req.entries.filterMap fun entry => (node.acceptEntries req).log.entryAt entry.index
      else []
  | .leader (.propose data) =>
      ((node.propose data).2.bind fun index => (node.propose data).1.log.entryAt index).toList
  | _ => []

/-- The request of a leader replaces an entry of the log. -/
def overwrites (node : Node σ) : Section → RaftLogEntry → Bool
  | .appendEntries req, entry =>
      decide (node.log.entryAt entry.index = some entry) &&
        decide ((node.acceptEntries req).log.entryAt entry.index ≠ some entry)
  | _, _ => false

end Section

/-- A node with what it has promised. `votes`, `acked` and `overwritten` are not part of the
program: the votes it has granted, the entries it has acknowledged, and those of them that
the request of a leader has replaced. -/
structure Promises (σ : Type) where
  node : Node σ
  votes : List (Nat × Nat)
  acked : List RaftLogEntry
  overwritten : List RaftLogEntry

/-- What can happen to the node. -/
inductive PromiseEvent (σ : Type) where
  /-- A section completes and answers. -/
  | run (taken : Section) (outcomes : List Bool)
  /-- The process is killed after `count` saves of a section, tried or made, and started
  again. -/
  | kill (taken : Section) (outcomes : List Bool) (count : Nat)
  /-- `ApplyCommitted` moves `last_applied_` and the state machine. -/
  | applied (index : Nat) (state : σ)

namespace Promises

open Node

variable {σ : Type} (machine : Option (StateMachine σ)) {node : Node σ} {taken : Section}
variable {file : PersistentState} {entry : RaftLogEntry}

/-- The node after a section whose saves end as `outcomes` says. -/
def runNode (node : Node σ) (taken : Section) (outcomes : List Bool) : Node σ :=
  (taken.run machine node).withDisk
    (node.disk.writeAll (Disk.survive (taken.writes machine node) outcomes))

/-- The node that is started again after a kill inside a section. -/
def killNode (node : Node σ) (taken : Section) (outcomes : List Bool) (count : Nat) : Node σ :=
  (node.withDisk (node.disk.writeAll
    (Disk.survive ((taken.writes machine node).take count) outcomes))).restart

/-- One event. -/
def step (state : Promises σ) : PromiseEvent σ → Promises σ
  | .run taken outcomes =>
      let acks := taken.acks machine state.node
      { node := runNode machine state.node taken outcomes
        votes := (taken.grants state.node).toList ++ state.votes
        acked := acks ++ state.acked
        overwritten := state.overwritten.filter (· ∉ acks) ++
          state.acked.filter (taken.overwrites state.node) }
  | .kill taken outcomes count =>
      -- What the section replaced counts if its log has reached the file, and nothing counts as
      -- replaced that the start finds again.
      let started := killNode machine state.node taken outcomes count
      let replaced := if started.log = (taken.run machine state.node).log then
        state.acked.filter (taken.overwrites state.node) else []
      { state with
        node := started
        overwritten := (state.overwritten ++ replaced).filter fun entry =>
          decide (started.log.entryAt entry.index ≠ some entry) }
  | .applied index machineState =>
      { state with
        node := { state.node with lastApplied := index, machineState := machineState } }

/-- A freshly constructed node has promised nothing. -/
def start (opts : RaftOptions) (state : σ) : Promises σ where
  node := { opts := opts, machineState := state }
  votes := []
  acked := []
  overwritten := []

/-! ## The condition -/

/-- A node whose vote of the term was erased is not asked for it by another candidate. -/
def VoteStands (state : Promises σ) : Section → Prop
  | .requestVote req =>
      state.node.VoteStands (fun candidate => (req.term, candidate) ∈ state.votes) req
  | _ => True

/-- A snapshot does not cut off an acknowledged entry behind its place. -/
def Spares (state : Promises σ) : Change σ → Prop
  | .install index _ _ _ =>
      ∀ entry ∈ state.acked, entry ∉ state.overwritten → entry.index ≤ index
  | .compact _ => (state.node.log.entryAt state.node.lastApplied).isSome = true →
      ∀ entry ∈ state.acked, entry ∉ state.overwritten → entry.index ≤ state.node.lastApplied
  | _ => True

/-- The section promises something. -/
def Answers (node : Node σ) (taken : Section) : Prop :=
  taken.grants node ≠ none ∨ taken.acks machine node ≠ []

/-- The last save of a section that promises something succeeds; votes stand; and snapshots spare
the acknowledged entries. -/
def Durably (state : Promises σ) : PromiseEvent σ → Prop
  | .run taken outcomes =>
      (Answers machine state.node taken →
        Disk.lastSaved (taken.writes machine state.node) outcomes = true) ∧
      state.VoteStands taken ∧ state.Spares (taken.change machine state.node)
  | .kill taken _ count => state.VoteStands taken ∧
      ((taken.writes machine state.node).length ≤ count →
        state.Spares (taken.change machine state.node))
  | .applied _ _ => True

/-! ## The invariant -/

/-- A term and a vote that exclude a second vote of the term of `vote`. -/
def Remembers (ballot vote : Nat × Nat) : Prop :=
  vote.1 < ballot.1 ∨ vote.1 = ballot.1 ∧ (ballot.2 = vote.2 ∨ ballot.2 = 0)

/-- An acknowledged entry is in the log, was replaced, or lies in front of the log. -/
def Holds (log : RaftLog) (overwritten : List RaftLogEntry) (entry : RaftLogEntry) : Prop :=
  log.entryAt entry.index = some entry ∨ entry ∈ overwritten ∨ entry.index ≤ log.base

/-- The memory and the file remember every promise. -/
structure Sound (state : Promises σ) : Prop where
  unique : ∀ first ∈ state.votes, ∀ second ∈ state.votes, first.1 = second.1 →
    first.2 = second.2
  voted : ∀ vote ∈ state.votes,
    Remembers (state.node.currentTerm, state.node.votedFor) vote
  votedFile : ∀ vote ∈ state.votes, ∃ file, state.node.stateFile = some file ∧
    Remembers (file.currentTerm, file.votedFor) vote
  held : ∀ entry ∈ state.acked, Holds state.node.log state.overwritten entry
  heldFile : ∀ entry ∈ state.acked, ∃ file, state.node.stateFile = some file ∧
    Holds file.log state.overwritten entry

theorem sound_start {opts : RaftOptions} {state : σ} : Sound (start opts state) where
  unique _ := nofun
  voted _ := nofun
  votedFile _ := nofun
  held _ := nofun
  heldFile _ := nofun

/-! ## Terms and votes -/

/-- The second term and vote remember what the first did. -/
def Succeeds (before after : Nat × Nat) : Prop :=
  before.1 < after.1 ∨ after.1 = before.1 ∧ (after.2 = before.2 ∨ after.2 = 0)

theorem Remembers.succeed (remembers : Remembers before vote) (succeeds : Succeeds before after) :
    Remembers after vote := by
  rcases remembers with earlier | ⟨same, voted⟩
  · rcases succeeds with later | ⟨term_eq, _⟩
    · exact .inl (lt_trans earlier later)
    · exact .inl (term_eq ▸ earlier)
  · rcases succeeds with later | ⟨term_eq, kept | erased⟩
    · exact .inl (same ▸ later)
    · exact .inr ⟨same.trans term_eq.symm, kept ▸ voted⟩
    · exact .inr ⟨same.trans term_eq.symm, .inr erased⟩

theorem succeeds_of_mild (mild : Mild before after) :
    Succeeds (before.currentTerm, before.votedFor) (after.currentTerm, after.votedFor) := by
  rcases mild with quiet | down
  · exact .inr ⟨quiet.term, .inl quiet.vote⟩
  · rcases lt_or_eq_of_le down.term with later | same
    · exact .inl later
    · exact .inr ⟨same.symm, .inr down.vote⟩

/-- A section leaves term and vote alone or steps down, unless it begins or wins an election or
is asked for a vote. -/
theorem mild_run (node : Node σ) (taken : Section) :
    Mild node (taken.run machine node) ∨
      taken.run machine node = node.becomeCandidate ∨
      (node.role = .candidate ∧ taken.run machine node = node.becomeLeader) ∨
      ∃ req, taken = .requestVote req := by
  have unchanged : Mild node node := .inl (.refl node)
  cases taken with
  | electionTimeout =>
    rw [run]
    split
    · exact .inl unchanged
    · exact .inr (.inl rfl)
  | winElection =>
    rw [run]
    split
    · rename_i stands
      exact .inr (.inr (.inl ⟨stands, rfl⟩))
    · exact .inl unchanged
  | stepDown term => exact .inl (observeTerm_mild node term)
  | requestVote req => exact .inr (.inr (.inr ⟨req, rfl⟩))
  | appendEntries _ => exact .inl (acceptEntries_mild node)
  | installSnapshot _ => exact .inl (handleInstallSnapshot_mild machine node)
  | installSnapshotChunk req => exact .inl (handleInstallSnapshotChunk_mild machine node req)
  | stop => exact .inl (.inl (savePersistentState_quiet node))
  | leader action => exact .inl (leader_mild machine node action)

/-- Behind the change only the result is saved, as the last thing. -/
theorem change_writes (change : Change σ) (result : Node σ) :
    change.writes result = [] ∨ ∃ front,
      change.writes result = front ++ [.state result.persisted] ∧ ∀ file, state file ∉ front := by
  have payload : ∀ file, state file ∉ result.payloadWrites := by
    intro file
    unfold payloadWrites
    split
    · exact not_mem_nil
    · simp
  cases change with
  | push _ _ _ => exact .inr ⟨[], rfl, fun _ => not_mem_nil⟩
  | merge _ _ =>
    rw [Change.writes]
    split
    · exact .inl rfl
    · exact .inr ⟨[], rfl, fun _ => not_mem_nil⟩
  | install _ _ _ _ | compact _ => exact .inr ⟨_, rfl, payload⟩
  | nothing | gap _ | commit _ | refuse _ => exact .inl rfl

theorem change_saves_result {change : Change σ}
    (member : DiskWrite.state file ∈ change.writes result) : file = result.persisted := by
  rcases change_writes change result with none | ⟨_, whole, clean⟩
  · rw [none] at member
    cases member
  · simpa [whole, clean] using member

variable {machine} {state : Promises σ}

/-- A granted vote does not conflict with an earlier one of its term. -/
theorem Sound.granted (sound : Sound state) (stands : state.VoteStands (.requestVote req))
    (granted : (state.node.handleRequestVote req).2.voteGranted = true) :
    ((state.node.handleRequestVote req).1.currentTerm = req.term ∧
      (state.node.handleRequestVote req).1.votedFor = req.candidateId) ∧
    ∀ vote ∈ state.votes, vote.1 < req.term ∨ vote.1 = req.term ∧ vote.2 = req.candidateId := by
  rcases handleRequestVote_cases state.node with ⟨_, refused⟩ |
    ⟨_, later, _, term_eq, vote_eq, _, _, own⟩
  · rw [granted] at refused
    cases refused
  refine ⟨⟨term_eq, vote_eq⟩, ?_⟩
  intro vote member
  rcases sound.voted vote member with earlier | ⟨same, voted⟩
  · exact .inl (lt_of_lt_of_le earlier later)
  rcases lt_or_eq_of_le later with above | current
  · exact .inl (same ▸ above)
  obtain ⟨free, upToDate⟩ := own current.symm
  refine .inr ⟨same.trans current, ?_⟩
  have listed : (req.term, vote.2) ∈ state.votes := (same.trans current) ▸ member
  rcases free with erased | repeated
  · exact stands erased current.symm upToDate _ listed
  · rcases voted with kept | erased
    · exact kept.symm.trans repeated
    · exact stands erased current.symm upToDate _ listed

/-- The result of a section, and every save of it, remember the votes given before. -/
theorem Sound.remembers (sound : Sound state) {taken : Section}
    (stands : state.VoteStands taken) (member : vote ∈ state.votes) :
    Remembers ((taken.run machine state.node).currentTerm,
      (taken.run machine state.node).votedFor) vote ∧
    ∀ file, DiskWrite.state file ∈ taken.writes machine state.node →
      Remembers (file.currentTerm, file.votedFor) vote := by
  have voted := sound.voted vote member
  have result : Remembers ((taken.run machine state.node).currentTerm,
      (taken.run machine state.node).votedFor) vote := by
    rcases mild_run machine state.node taken with mild | same | ⟨_, same⟩ | ⟨req, rfl⟩
    · exact voted.succeed (succeeds_of_mild mild)
    · rw [same]
      exact voted.succeed (.inl (Nat.lt_succ_self _))
    · rw [same]
      exact voted
    rw [Section.run]
    cases granted : (state.node.handleRequestVote req).2.voteGranted with
    | false =>
      rcases handleRequestVote_cases state.node with ⟨mild, _⟩ | ⟨also, _⟩
      · exact voted.succeed (succeeds_of_mild mild)
      · rw [granted] at also
        cases also
    | true =>
      obtain ⟨⟨term_eq, vote_eq⟩, earlier⟩ := sound.granted stands granted
      rw [term_eq, vote_eq]
      rcases earlier vote member with before | ⟨same, candidate⟩
      · exact .inl before
      · exact .inr ⟨same, .inl candidate.symm⟩
  refine ⟨result, ?_⟩
  intro file saved
  rcases mem_append.mp saved with early | late
  · cases saves_early early with
    | follows current =>
      exact voted.succeed (succeeds_of_mild (.inr (becomeFollower_stepsDown _ current)))
    | stands => exact voted.succeed (.inl (Nat.lt_succ_self _))
    | votes asked =>
      subst asked
      exact result
    | stops => exact voted
  · rw [change_saves_result late]
    exact result

/-! ## Acknowledged entries -/

/-- What an acknowledged entry becomes in the log of a section's result. -/
theorem Sound.survives (sound : Sound state)
    (spares : state.Spares (taken.change machine state.node)) (member : entry ∈ state.acked) :
    Holds (taken.run machine state.node).log
      (state.overwritten ++ state.acked.filter (taken.overwrites state.node)) entry := by
  have log_eq := congrArg Core.log (core_run machine state.node taken)
  have makes := makes_change machine state.node taken
  by_cases replaced : entry ∈ state.overwritten
  · exact .inr (.inl (mem_append_left _ replaced))
  have held : state.node.log.entryAt entry.index = some entry ∨
      entry.index ≤ state.node.log.base := by simpa [Holds, replaced] using sound.held entry member
  have same : (taken.run machine state.node).log = state.node.log →
      (taken.run machine state.node).log.entryAt entry.index = some entry ∨
        entry.index ≤ (taken.run machine state.node).log.base := fun log_eq => log_eq ▸ held
  generalize taken.change machine state.node = change at *
  cases change with
  | nothing | commit _ | refuse _ => exact (same log_eq).imp_right .inr
  | push term type data =>
    have log_eq : (taken.run machine state.node).log = state.node.log.push term type data := log_eq
    rw [log_eq]
    rcases held with held | below
    · exact .inl (state.node.log.entryAt_push_of_some held)
    · exact .inr (.inr below)
  | merge _ _ | gap _ =>
    -- The entry is kept, or the request replaces it.
    obtain ⟨req, rfl, rfl, _⟩ := makes
    rcases held with held | below
    · by_cases kept : (run machine state.node (.appendEntries req)).log.entryAt
          entry.index = some entry
      · exact .inl kept
      · refine .inr (.inl (mem_append_right _ (mem_filter.mpr ⟨member, ?_⟩)))
        rw [overwrites, Bool.and_eq_true, decide_eq_true_eq, decide_eq_true_eq]
        exact ⟨held, kept⟩
    · refine .inr (.inr ?_)
      have base_eq := congrArg base log_eq
      exact le_of_le_of_eq below ((base_appendEntries _ _).symm.trans base_eq.symm)
  | install index _ _ _ =>
    have base_eq : (taken.run machine state.node).log.base = index := congrArg base log_eq
    exact .inr (.inr (base_eq ▸ spares entry member replaced))
  | compact _ =>
    dsimp only [Node.core, Change.apply] at log_eq
    cases found : state.node.log.entryAt state.node.lastApplied with
    | none =>
      rw [found] at log_eq
      exact (same log_eq).imp_right .inr
    | some _ =>
      rw [found] at log_eq
      have base_eq : (taken.run machine state.node).log.base = state.node.lastApplied :=
        (congrArg RaftLog.base log_eq).trans (state.node.log.entryAt_some found).1
      refine .inr (.inr ?_)
      rw [base_eq]
      exact spares (by rw [found]; rfl) entry member replaced

/-- What a section acknowledges is in its log. -/
theorem acks_held (acked : entry ∈ taken.acks machine node) :
    (taken.run machine node).log.entryAt entry.index = some entry := by
  cases taken with
  | appendEntries req =>
    rw [acks] at acked
    split at acked
    · obtain ⟨_, _, found⟩ := mem_filterMap.mp acked
      rw [((node.acceptEntries req).log.entryAt_some found).1]
      exact found
    · cases acked
  | leader action =>
    cases action with
    | propose data =>
      rw [acks, mem_toList] at acked
      obtain ⟨_, _, found⟩ := bind_eq_some_iff.mp acked
      rw [((node.propose data).1.log.entryAt_some found).1]
      exact found
    | _ => cases acked
  | _ => cases acked

/-- The last thing a promising section does is to save its result. -/
theorem writes_of_answers (answers : Answers machine node taken) :
    ∃ front, taken.writes machine node = front ++ [.state (taken.run machine node).persisted] := by
  cases taken with
  | requestVote req =>
    rcases answers with granted | acked
    · rw [grants] at granted
      split at granted
      · rename_i voted
        have current : ¬ req.term < node.currentTerm := by
          intro stale
          simp [handleRequestVote, stale] at voted
        rw [writes, early, if_neg current, if_pos voted]
        exact ⟨_, append_nil _⟩
      · exact absurd rfl granted
    · exact absurd rfl acked
  | appendEntries req =>
    rcases answers with granted | acked
    · exact absurd rfl granted
    rw [acks] at acked
    split at acked
    · rename_i answered
      have some_entry : req.entries ≠ [] := by
        intro empty
        rw [empty] at acked
        exact acked rfl
      have accepted : node.refuses req = false := by
        by_contra refused
        rw [Bool.not_eq_false] at refused
        rw [(handleAppendEntries_of_refuses machine refused).1] at answered
        cases answered
      have merged := (handleAppendEntries_success answered).1
      refine ⟨early node (.appendEntries req), ?_⟩
      rw [writes, change, accepted, merged]
      simp only [Bool.false_eq_true, if_false, if_true, Change.writes, some_entry]
    · exact absurd rfl acked
  | leader action =>
    rcases answers with granted | acked
    · exact absurd rfl granted
    cases action with
    | propose _ =>
      by_cases leads : node.role = .leader
      · refine ⟨[], ?_⟩
        rw [writes, change, if_pos leads]
        rfl
      · rw [acks, propose, if_pos leads] at acked
        exact absurd rfl acked
    | _ => exact absurd rfl acked
  | _ => exact absurd answers (by simp [Answers, grants, acks])

theorem log_of_early (saved : DiskWrite.state file ∈ taken.early node) : file.log = node.log := by
  obtain ⟨_, same, log_eq⟩ := carry_early node taken _ saved
  rw [state.injEq] at same
  exact same ▸ log_eq

/-- The state file of a section carries the old log, or is its result. -/
theorem log_of_saved (saved : DiskWrite.state file ∈ taken.writes machine node) :
    file.log = node.log ∨ file = (taken.run machine node).persisted := by
  rcases mem_append.mp saved with early | late
  · exact .inl (log_of_early early)
  · exact .inr (change_saves_result late)

/-! ## The events -/

theorem Holds.more {log : RaftLog} {overwritten larger : List RaftLogEntry}
    (holds : Holds log overwritten entry) (more : entry ∈ overwritten → entry ∈ larger) :
    Holds log larger entry := by
  rcases holds with held | replaced | below
  · exact .inl held
  · exact .inr (.inl (more replaced))
  · exact .inr (.inr below)

/-- What the log holds need not count as replaced. -/
theorem Holds.unless {log started : RaftLog} {overwritten : List RaftLogEntry}
    (holds : Holds log overwritten entry) (same : started = log) :
    Holds log (overwritten.filter fun entry =>
      decide (started.entryAt entry.index ≠ some entry)) entry := by
  subst same
  by_cases held : started.entryAt entry.index = some entry
  · exact .inl held
  · exact holds.more fun replaced => mem_filter.mpr ⟨replaced, decide_eq_true held⟩

/-- The vote that a section grants is the one in its result. -/
theorem Sound.grants (sound : Sound state) (stands : state.VoteStands taken)
    (granted : taken.grants state.node = some vote) :
    Remembers ((taken.run machine state.node).currentTerm,
      (taken.run machine state.node).votedFor) vote ∧
    ∀ other ∈ state.votes, other.1 < vote.1 ∨ other.1 = vote.1 ∧ other.2 = vote.2 := by
  cases taken with
  | requestVote req =>
    rw [Section.grants] at granted
    split at granted
    · rename_i voted
      cases granted
      obtain ⟨⟨term_eq, vote_eq⟩, earlier⟩ := sound.granted stands voted
      exact ⟨.inr ⟨term_eq.symm, .inl vote_eq⟩, earlier⟩
    · cases granted
  | _ => cases granted

/-- After some of the saves of a section the file remembers the votes given before. -/
theorem Sound.votedFile_after (sound : Sound state) (stands : state.VoteStands taken)
    (saves : saved ⊆ taken.writes machine state.node) :
    ∀ vote ∈ state.votes, ∃ file, (state.node.disk.writeAll saved).stateFile = some file ∧
      Remembers (file.currentTerm, file.votedFor) vote := by
  intro vote member
  rcases stateFile_writeAll state.node.disk saved with same | ⟨file, written, found⟩
  · obtain ⟨file, found, remembers⟩ := sound.votedFile vote member
    exact ⟨file, same.trans found, remembers⟩
  · exact ⟨file, found, (sound.remembers stands member).2 file (saves written)⟩

/-- After saves that carry the old log or hold the entry. -/
theorem Sound.heldFile_after (sound : Sound state) (member : entry ∈ state.acked)
    (more : entry ∈ state.overwritten → entry ∈ larger)
    (saves : ∀ file, DiskWrite.state file ∈ saved →
      (state.node.disk.writeAll saved).stateFile = some file →
      file.log = state.node.log ∨ Holds file.log larger entry) :
    ∃ file, (state.node.disk.writeAll saved).stateFile = some file ∧
      Holds file.log larger entry := by
  rcases stateFile_writeAll state.node.disk saved with same | ⟨file, written, found⟩
  · obtain ⟨file, found, holds⟩ := sound.heldFile entry member
    exact ⟨file, same.trans found, holds.more more⟩
  refine ⟨file, found, ?_⟩
  rcases saves file written found with log_eq | holds
  · rw [log_eq]
    exact (sound.held entry member).more more
  · exact holds

theorem Sound.run (sound : Sound state) (durably : Durably machine state (.run taken outcomes)) :
    Sound (state.step machine (.run taken outcomes)) := by
  obtain ⟨saved, stands, spares⟩ := durably
  have fresh : ∀ vote, taken.grants state.node = some vote →
      ∀ other ∈ (taken.grants state.node).toList ++ state.votes, vote.1 = other.1 →
        vote.2 = other.2 := by
    intro vote granted other member same
    rcases mem_append.mp member with also | before
    · rw [mem_toList, granted] at also
      rw [some.inj also]
    · rcases (@grants _ machine _ _ _ sound stands granted).2 other before with
        lower | ⟨_, candidate⟩
      · exact absurd same (ne_of_gt lower)
      · exact candidate.symm
  have unique : ∀ first ∈ (taken.grants state.node).toList ++ state.votes,
      ∀ second ∈ (taken.grants state.node).toList ++ state.votes, first.1 = second.1 →
        first.2 = second.2 := by
    intro first isFirst second isSecond same
    rcases mem_append.mp isFirst with new | old
    · exact fresh first (mem_toList.mp new) second isSecond same
    rcases mem_append.mp isSecond with new | also
    · exact (fresh second (mem_toList.mp new) first isFirst same.symm).symm
    · exact sound.unique first old second also same
  have voted : ∀ vote ∈ (taken.grants state.node).toList ++ state.votes,
      Remembers ((taken.run machine state.node).currentTerm,
        (taken.run machine state.node).votedFor) vote := by
    intro vote member
    rcases mem_append.mp member with new | old
    · exact (sound.grants stands (mem_toList.mp new)).1
    · exact (sound.remembers stands old).1
  have held : ∀ entry ∈ taken.acks machine state.node ++ state.acked,
      Holds (taken.run machine state.node).log
        (state.step machine (.run taken outcomes)).overwritten entry := by
    intro entry member
    by_cases again : entry ∈ taken.acks machine state.node
    · exact .inl (acks_held again)
    have old := (mem_append.mp member).resolve_left again
    refine (sound.survives spares old).more fun replaced => mem_append.mpr ?_
    exact (mem_append.mp replaced).imp_left fun before =>
      mem_filter.mpr ⟨before, decide_eq_true again⟩
  by_cases answers : Answers machine state.node taken
  · have found : (runNode machine state.node taken outcomes).stateFile =
        some (taken.run machine state.node).persisted := by
      obtain ⟨front, writes_eq⟩ := writes_of_answers answers
      have saved := saved answers
      rw [writes_eq] at saved
      have file := stateFile_of_lastSaved state.node.disk saved
      rw [← writes_eq] at file
      exact file
    exact ⟨unique, voted, fun vote member => ⟨_, found, voted vote member⟩, held,
      fun entry member => ⟨_, found, held entry member⟩⟩
  -- The section promises nothing new.
  rw [Answers, not_or, not_not, not_not] at answers
  obtain ⟨quiet, silent⟩ := answers
  refine ⟨unique, voted, ?_, held, ?_⟩
  · change ∀ vote ∈ (taken.grants state.node).toList ++ state.votes, _
    rw [quiet]
    exact sound.votedFile_after stands (survive_subset _ outcomes)
  · intro entry member
    have old : entry ∈ state.acked := (mem_append.mp member).resolve_left (silent ▸ not_mem_nil)
    refine sound.heldFile_after old (fun replaced => ?_) fun file written _ => ?_
    · refine mem_append_left _ (mem_filter.mpr ⟨replaced, ?_⟩)
      rw [silent]
      exact decide_eq_true not_mem_nil
    · refine (log_of_saved (survive_subset _ outcomes written)).imp_right ?_
      rintro rfl
      exact held entry member

theorem restart_of_file (found : node.stateFile = some file) :
    node.restart.currentTerm = file.currentTerm ∧ node.restart.votedFor = file.votedFor ∧
      node.restart.log = file.log ∧ node.restart.stateFile = some file := by
  have loaded : ∀ other : Node σ, other.loadSnapshotData.currentTerm = other.currentTerm ∧
      other.loadSnapshotData.votedFor = other.votedFor ∧ other.loadSnapshotData.log = other.log ∧
      other.loadSnapshotData.stateFile = other.stateFile := by
    intro _
    unfold loadSnapshotData
    repeat' split
    all_goals exact ⟨rfl, rfl, rfl, rfl⟩
  unfold restart
  rw [found]
  exact loaded _

/-- A start keeps the promises that the state file remembers. -/
theorem Sound.restart {votes : List (Nat × Nat)} {acked overwritten : List RaftLogEntry}
    (unique : ∀ first ∈ votes, ∀ second ∈ votes, first.1 = second.1 → first.2 = second.2)
    (votedFile : ∀ vote ∈ votes, ∃ file, node.stateFile = some file ∧
      Remembers (file.currentTerm, file.votedFor) vote)
    (heldFile : ∀ entry ∈ acked, ∃ file, node.stateFile = some file ∧
      Holds file.log overwritten entry) :
    Sound ⟨node.restart, votes, acked, overwritten⟩ := by
  constructor
  · exact unique
  · intro vote member
    obtain ⟨_, found, remembers⟩ := votedFile vote member
    obtain ⟨term_eq, vote_eq, _⟩ := restart_of_file found
    rw [term_eq, vote_eq]
    exact remembers
  · intro vote member
    obtain ⟨file, found, remembers⟩ := votedFile vote member
    exact ⟨file, (restart_of_file found).2.2.2, remembers⟩
  · intro entry member
    obtain ⟨_, found, holds⟩ := heldFile entry member
    rw [(restart_of_file found).2.2.1]
    exact holds
  · intro entry member
    obtain ⟨file, found, holds⟩ := heldFile entry member
    exact ⟨file, (restart_of_file found).2.2.2, holds⟩

/-- A kill in front of the last save leaves a file with the old log, or the old file. -/
theorem log_of_cut (cut : count < (taken.writes machine node).length)
    (saved : DiskWrite.state file ∈ (taken.writes machine node).take count) :
    file.log = node.log := by
  rw [writes] at cut saved
  rcases change_writes (taken.change machine node) (taken.run machine node) with
    none | ⟨_, whole, clean⟩
  · rw [none, append_nil] at saved
    exact log_of_early (mem_of_mem_take saved)
  rw [whole, ← append_assoc] at cut saved
  rw [length_append, length_singleton] at cut
  rw [take_append_of_le_length (by omega)] at saved
  rcases mem_append.mp (mem_of_mem_take saved) with member | member
  · exact log_of_early member
  · exact absurd member (clean file)

/-- A section that is killed keeps the promises. -/
theorem Sound.kill (sound : Sound state) {taken : Section} {outcomes : List Bool}
    (durably : Durably machine state (.kill taken outcomes count)) :
    Sound (state.step machine (.kill taken outcomes count)) := by
  obtain ⟨stands, spares⟩ := durably
  have made : survive ((taken.writes machine state.node).take count) outcomes ⊆
      (taken.writes machine state.node).take count := survive_subset _ outcomes
  refine Sound.restart sound.unique ?_ ?_
  · exact sound.votedFile_after stands fun _ written => mem_of_mem_take (made written)
  · intro entry member
    refine Exists.imp (fun file holds => ⟨holds.1, holds.2.unless (restart_of_file holds.1).2.2.1⟩)
      (sound.heldFile_after member (mem_append_left _) fun file written found => ?_)
    rcases lt_or_ge count (taken.writes machine state.node).length with cut | complete
    · exact .inl (log_of_cut cut (made written))
    · refine (log_of_saved (mem_of_mem_take (made written))).imp_right ?_
      rintro rfl
      have reached : (killNode machine state.node taken outcomes count).log =
          (taken.run machine state.node).log :=
        (@restart_of_file _ (state.node.withDisk _) _ found).2.2.1
      rw [if_pos reached]
      exact sound.survives (spares complete) member

theorem Sound.step (sound : Sound state) (durably : Durably machine state event) :
    Sound (state.step machine event) := by
  cases event with
  | run _ _ => exact sound.run durably
  | kill _ _ _ => exact sound.kill durably
  | applied _ _ => exact { sound with }

/-- The node has granted one vote a term, and finds every acknowledged entry after a start,
unless the entry was replaced by a leader or lies in front of its compacted log. -/
structure Kept (state : Promises σ) : Prop where
  votes : ∀ first ∈ state.votes, ∀ second ∈ state.votes, first.1 = second.1 → first.2 = second.2
  entries : ∀ entry ∈ state.acked, Holds state.node.restart.log state.overwritten entry

/-- In every run with failing saves, kills and starts in which the last save of each promising
section succeeds, votes stand and snapshots spare the acknowledged entries, the promises
are kept. -/
theorem promises_kept (machine : Option (StateMachine σ)) (opts : RaftOptions)
    (machineState : σ) (events : List (PromiseEvent σ))
    (durably : Runs.Meets (step machine) (Durably machine) (start opts machineState) events) :
    Kept (Runs.run (step machine) (start opts machineState) events) := by
  have sound := durably.invariant (sound_start) fun _ _ sound allowed => sound.step allowed
  refine ⟨sound.unique, ?_⟩
  intro entry member
  obtain ⟨file, found, holds⟩ := sound.heldFile entry member
  rw [(restart_of_file found).2.2.1]
  exact holds

/-- A candidate with an empty log asks for the vote of term one. -/
def firstTermRequest (candidate : Nat) : Section :=
  .requestVote { term := 1, candidateId := candidate, lastLogIndex := 0, lastLogTerm := 0 }

/-- Node 2 of three, freshly constructed. -/
def freshNode : Promises Unit :=
  start (.ofThree 2) ()

/-- The node is asked for its vote, killed, and asked by another candidate of the term. -/
abbrev askedTwice (saves : List Bool) : Promises Unit :=
  Runs.run (step none) freshNode
    [.run (firstTermRequest 1) saves, .kill .stop [] 0, .run (firstTermRequest 3) []]

/-- A saved vote is remembered after a kill, and another candidate of the term is refused. -/
theorem promises_kept_oneVote : (askedTwice []).votes = [(1, 1)] ∧ Kept (askedTwice []) := by
  refine ⟨by decide +kernel, promises_kept none _ () _ ⟨?_, ?_, ?_, trivial⟩⟩
  · exact ⟨fun _ => by decide +kernel, fun _ _ _ _ member => (not_mem_nil member).elim, trivial⟩
  · exact ⟨trivial, fun _ => trivial⟩
  · refine ⟨fun _ => by decide +kernel, fun erased => ?_, trivial⟩
    exact absurd erased (by decide +kernel)

/-- The node is elected, and the save of its first proposal fails. -/
abbrev unsavedProposal : Promises Unit :=
  Runs.run (step none) freshNode
    [.run .electionTimeout [], .run .winElection [], .run (.leader (.propose [97])) [false]]

/-- A vote whose save fails is granted again to another candidate of the term, and a proposal
whose save fails is gone after a start. -/
theorem unsaved_promises_broken :
    (askedTwice [true, false]).votes = [(1, 3), (1, 1)] ∧
      unsavedProposal.acked = [{ index := 2, term := 1, type := .command, data := [97] }] ∧
      unsavedProposal.node.restart.log.lastLogIndex = 1 ∧
      ¬ Kept (askedTwice [true, false]) ∧ ¬ Kept unsavedProposal := by
  refine ⟨by decide +kernel, by decide +kernel, by decide +kernel, ?_, ?_⟩
  · intro kept
    have same := kept.votes (1, 3) (by decide +kernel) (1, 1) (by decide +kernel) rfl
    exact absurd same (by decide)
  intro kept
  rcases kept.entries { index := 2, term := 1, type := .command, data := [97] }
    (by decide +kernel) with held | replaced | below
  · exact absurd held (by decide +kernel)
  · exact absurd replaced (by decide +kernel)
  · exact absurd below (by decide +kernel)

end Promises

end LightKV.Raft
