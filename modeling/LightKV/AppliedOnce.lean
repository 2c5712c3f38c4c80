import LightKV.ApplyThreads

/-!
# Entries are applied once and in order

The lock is not held while `Apply` runs, so nothing in `ApplyCommitted` keeps a second caller from
starting the next entry before the first `Apply` has returned. That is the defect; the run at the
end of the module shows it with a follower that becomes leader in the meantime.

`Orderly` excludes it: `ApplyCommitted` is called only while no other call of it is under way. Nor
does a section make the reference stale that a running `Apply` was given. `Orderly` also
excludes what other defects do to committed entries: a request of a leader that replaces one, and
a snapshot or an image that cuts one off. The invariant then says that the calls of `Apply` are
serial, that their indices increase, and that a committed command was given to the state machine,
is covered by an image, or still waits in the log behind `last_applied_`.
-/

namespace LightKV.Raft

open List Option RaftLog Section Threads Runs

/-- The entry of a flight. -/
def Flight.call (flight : Flight) : Nat × Bytes :=
  (flight.index, flight.data)

namespace Threads

open Node SerialCalls

variable {σ : Type} (machine : StateMachine σ) (state : Threads σ)
variable {flight : Flight} {entry : RaftLogEntry} {grown : Bool} {read : Bytes}

/-- The calls of `Apply` that the state machine is working on. -/
def unfinished : List Flight :=
  state.flights.filter fun flight => !flight.finished

/-! ## The condition -/

/-- A change leaves alone what has ever been committed: no request of a leader disagrees with it,
no image ends in front of it, and no compaction cuts off a part of it. -/
def Respects : Change σ → Prop
  | .merge entries _ | .gap entries => ∀ entry ∈ entries, entry.index ≤ state.highest →
      (state.node.log.entryAt entry.index).all fun old => old.term == entry.term
  | .install index _ _ _ => state.highest ≤ index
  | .compact _ => state.highest ≤ state.node.lastApplied
  | .nothing | .push _ _ _ | .commit _ | .refuse _ => True

/-- A section leaves the entries where they are that running calls of `Apply` refer to. -/
def Undisplaced (grown : Bool) (change : Change σ) : Prop :=
  ∀ flight ∈ state.unfinished, displaces state.node grown flight change = false

/-- Sections leave alone what is committed and what running calls refer to, and `ApplyCommitted` is
called only while no other call of it is under way. -/
def Orderly : ThreadEvent → Prop
  | .locked thread taken grown => state.busy thread = false →
      state.Undisplaced grown (taken.change (some machine) state.node) ∧
      state.Respects (taken.change (some machine) state.node) ∧
      (taken.applies state.node = true → state.flights = [])
  | .finish _ _ | .resume _ | .setServer => True
  | .crash => False

/-! ## The invariant -/

/-- What holds of the indices, the log and the records whenever the lock is free or a thread is
about to run `ApplyCommitted`. -/
structure Mid (state : Threads σ) : Prop where
  applied_le : state.node.lastApplied ≤ state.node.commitIndex
  commit_le : state.node.commitIndex ≤ state.highest
  highest_le : state.highest ≤ state.node.log.lastLogIndex
  floor_le : state.floor ≤ state.highest
  sorted : state.committed.Pairwise (·.index < ·.index)
  bounded : ∀ entry ∈ state.committed, entry.index ≤ state.highest
  recorded : ∀ entry, state.node.log.entryAt entry.index = some entry → 0 < entry.index →
    entry.index ≤ state.highest → entry.type = .command → entry ∈ state.committed
  above : ∀ entry, state.node.log.entryAt entry.index = some entry → 0 < entry.index →
    entry.type = .command → state.floor < entry.index
  ahead : ∀ entry, state.node.log.entryAt entry.index = some entry → entry.type = .command →
    state.node.lastApplied < entry.index → ∀ call ∈ begun state.trace, call.1 < entry.index
  ordered : (begun state.trace).Pairwise (·.1 < ·.1)
  known : ∀ call ∈ begun state.trace, ∃ entry ∈ state.committed, entry.type = .command ∧
    call = (entry.index, entry.data)
  pending : ∀ entry ∈ state.committed, entry.type = .command →
    (entry.index, entry.data) ∈ begun state.trace ∨ entry.index ≤ state.floor ∨
      state.node.lastApplied < entry.index ∧ entry.index ≤ state.node.commitIndex ∧
        state.node.log.entryAt entry.index = some entry

/-- The calls come one after another, and the one that runs is the only flight not finished. -/
def OneCall : Prop :=
  ∃ running, runningAfter state.trace = some running ∧
    state.unfinished.map Flight.call = running.toList

/-- The log holds a command for which a call began. -/
def HoldsBegun : Prop :=
  ∃ entry, state.node.log.entryAt entry.index = some entry ∧ entry.type = .command ∧
    (entry.index, entry.data) ∈ begun state.trace

/-- What holds between the events. There is one call at most, and while there is something left to
apply, its command is still in the log. -/
structure Inv (state : Threads σ) : Prop extends Mid state where
  idle : state.unfinished = [] ∧ state.node.commitIndex ≤ state.node.lastApplied ∨
    state.flights ≠ [] ∧ HoldsBegun state
  oneCall : OneCall state
  single : state.flights.length ≤ 1
  upToDate : ∀ flight ∈ state.unfinished, flight.stale = false

variable {machine state} {node : Node σ}

/-- Calls that began have indices up to the highest commit index. -/
theorem Mid.begun_le (mid : Mid state) (member : call ∈ begun state.trace) :
    call.1 ≤ state.highest := by
  obtain ⟨entry, committed, _, rfl⟩ := mid.known call member
  exact mid.bounded entry committed

/-- With nothing left to apply, every committed command was applied or is covered by an image. -/
theorem Inv.settled (inv : Inv state) (applied : state.node.commitIndex ≤ state.node.lastApplied)
    (member : entry ∈ state.committed) (command : entry.type = .command) :
    (entry.index, entry.data) ∈ begun state.trace ∨ entry.index ≤ state.floor := by
  rcases inv.pending entry member command with applied | covered | ⟨_, _, _⟩
  · exact .inl applied
  · exact .inr covered
  · omega

theorem inv_start : Inv (start node) := by
  obtain ⟨commit_eq, applied_eq, _, _⟩ := restart_fields node
  constructor
  · constructor
    · rw [start, commit_eq, applied_eq]
    · exact le_of_eq commit_eq
    · exact Nat.zero_le _
    · exact le_refl _
    · exact .nil
    · exact nofun
    · intro _ _ positive low
      exact absurd positive (not_lt.mpr low)
    · exact fun _ _ positive _ => positive
    · exact fun _ _ _ _ _ => nofun
    · exact .nil
    · exact nofun
    · exact nofun
  · refine .inl ⟨rfl, ?_⟩
    rw [start, commit_eq, applied_eq]
  · exact ⟨none, rfl, rfl⟩
  · exact Nat.zero_le _
  · exact nofun

/-! ## What becomes committed -/

theorem mem_newlyCommitted {highest : Nat} :
    entry ∈ newlyCommitted highest node ↔
      node.log.entryAt entry.index = some entry ∧ highest < entry.index ∧
        entry.index ≤ node.commitIndex := by
  unfold newlyCommitted
  rw [mem_filterMap]
  constructor
  · rintro ⟨_, inside, found⟩
    rw [mem_range'_1] at inside
    rw [(node.log.entryAt_some found).1]
    exact ⟨found, by omega, by omega⟩
  · rintro ⟨found, _, _⟩
    refine ⟨entry.index, ?_, found⟩
    rw [mem_range'_1]
    omega

theorem newlyCommitted_sorted {highest : Nat} :
    (newlyCommitted highest node).Pairwise (·.index < ·.index) := by
  refine List.Pairwise.filterMap _ ?_ pairwise_lt_range'
  intro _ _ before _ found _ also
  rw [(node.log.entryAt_some found).1, (node.log.entryAt_some also).1]
  exact before

/-- A section that raises no commit index commits nothing. -/
theorem record_of_le (low : node.commitIndex ≤ state.highest) :
    state.record node = { state with node := node } := by
  have nothing : newlyCommitted state.highest node = [] := by
    refine eq_nil_iff_forall_not_mem.mpr ?_
    intro _ member
    obtain ⟨_, _, _⟩ := mem_newlyCommitted.mp member
    omega
  rw [record, nothing, max_eq_left low, append_nil]

/-- A section that displaces nothing leaves the calls under way alone. -/
theorem locked_eq (kept : state.Undisplaced grown (taken.change (some machine) state.node)) :
    state.locked machine taken grown =
      (state.recordImage (taken.change (some machine) state.node)).record
        (taken.run (some machine) state.node) := by
  have same : state.displace grown (taken.change (some machine) state.node) = state := by
    have fixed : ∀ flight ∈ state.flights,
        (if !flight.finished && displaces state.node grown flight
            (taken.change (some machine) state.node) then { flight with stale := true }
          else flight) = flight := by
      intro flight member
      refine if_neg fun moved => ?_
      rw [Bool.and_eq_true] at moved
      rw [kept flight (mem_filter.mpr ⟨member, moved.1⟩)] at moved
      cases moved.2
    rw [displace, map_congr_left fixed, List.map_id']
  rw [locked, same]

section

variable (mid : Mid state)
include mid

/-- The committed entries stay sorted when newly committed ones follow. -/
theorem Mid.sorted_append :
    (state.committed ++ newlyCommitted state.highest node).Pairwise (·.index < ·.index) := by
  rw [pairwise_append]
  refine ⟨mid.sorted, newlyCommitted_sorted, ?_⟩
  intro first old _ fresh
  exact lt_of_le_of_lt (mid.bounded first old) (mem_newlyCommitted.mp fresh).2.1

/-- No index of the committed entries passes the new highest commit index. -/
theorem Mid.bounded_append :
    ∀ entry ∈ state.committed ++ newlyCommitted state.highest node,
      entry.index ≤ max state.highest node.commitIndex := by
  intro entry member
  rcases mem_append.mp member with old | fresh
  · exact le_trans (mid.bounded entry old) (le_max_left _ _)
  · exact le_trans (mem_newlyCommitted.mp fresh).2.2 (le_max_right _ _)

theorem Mid.known_append :
    ∀ call ∈ begun state.trace, ∃ entry ∈ state.committed ++ more, entry.type = .command ∧
      call = (entry.index, entry.data) := by
  intro call member
  obtain ⟨entry, committed, facts⟩ := mid.known call member
  exact ⟨entry, mem_append_left _ committed, facts⟩

/-! ## Sections -/

/-- A section that changes the log only behind the highest commit index, and raises the commit
index at most. -/
theorem Mid.extend
    (same : ∀ index ≤ state.highest, node.log.entryAt index = state.node.log.entryAt index)
    (reaches : state.highest ≤ node.log.lastLogIndex)
    (applied_eq : node.lastApplied = state.node.lastApplied)
    (raised : state.node.commitIndex ≤ node.commitIndex)
    (within : node.commitIndex ≤ node.log.lastLogIndex) : Mid (state.record node) := by
  have old : ∀ entry, node.log.entryAt entry.index = some entry → entry.index ≤ state.highest →
      state.node.log.entryAt entry.index = some entry := by
    intro entry held low
    rw [← same entry.index low]
    exact held
  constructor
  · exact applied_eq ▸ le_trans mid.applied_le raised
  · exact le_max_right _ _
  · exact Nat.max_le.mpr ⟨reaches, within⟩
  · exact le_trans mid.floor_le (le_max_left _ _)
  · exact mid.sorted_append
  · exact mid.bounded_append
  · intro entry held positive below command
    rcases lt_or_ge state.highest entry.index with fresh | low
    · refine mem_append_right _ (mem_newlyCommitted.mpr ⟨held, fresh, ?_⟩)
      have below : entry.index ≤ max state.highest node.commitIndex := below
      omega
    · exact mem_append_left _ (mid.recorded entry (old entry held low) positive low command)
  · intro entry held positive command
    rcases lt_or_ge state.highest entry.index with fresh | low
    · exact lt_of_le_of_lt mid.floor_le fresh
    · exact mid.above entry (old entry held low) positive command
  · intro entry held command behind call member
    rcases lt_or_ge state.highest entry.index with fresh | low
    · exact lt_of_le_of_lt (mid.begun_le member) fresh
    · exact mid.ahead entry (old entry held low) command (applied_eq ▸ behind) call member
  · exact mid.ordered
  · exact mid.known_append
  · intro entry member command
    rcases mem_append.mp member with before | fresh
    · rcases mid.pending entry before command with applied | covered | ⟨behind, below, held⟩
      · exact .inl applied
      · exact .inr (.inl covered)
      · refine .inr (.inr ⟨applied_eq.symm ▸ behind, le_trans below raised, ?_⟩)
        exact (same entry.index (le_trans below mid.commit_le)).trans held
    obtain ⟨held, _, below⟩ := mem_newlyCommitted.mp fresh
    refine .inr (.inr ⟨?_, below, held⟩)
    have := mid.applied_le
    have := mid.commit_le
    show node.lastApplied < entry.index
    omega

/-- A compaction that finds everything committed applied. -/
theorem Mid.compact
    (fewer : ∀ entry, node.log.entryAt entry.index = some entry →
      state.node.log.entryAt entry.index = some entry)
    (reaches : state.highest ≤ node.log.lastLogIndex)
    (applied_eq : node.lastApplied = state.node.lastApplied)
    (commit_eq : node.commitIndex = state.node.commitIndex)
    (finished : state.highest ≤ state.node.lastApplied) : Mid (state.record node) := by
  have low : node.commitIndex ≤ state.highest := commit_eq ▸ mid.commit_le
  rw [record_of_le low]
  refine { mid with
    applied_le := ?_
    commit_le := low
    highest_le := reaches
    recorded := fun entry held => mid.recorded entry (fewer entry held)
    above := fun entry held => mid.above entry (fewer entry held)
    ahead := fun entry held command behind =>
      mid.ahead entry (fewer entry held) command (applied_eq ▸ behind)
    pending := ?_ }
  · rw [commit_eq, applied_eq]
    exact mid.applied_le
  intro entry member command
  rcases mid.pending entry member command with applied | covered | ⟨_, _, _⟩
  · exact .inl applied
  · exact .inr (.inl covered)
  · omega

/-- An image that covers everything committed. -/
theorem Mid.image {index term : Nat} {image : Bytes} {machineState : σ}
    (log_eq : node.log = .single { index := index, term := term, type := .noOp })
    (applied_eq : node.lastApplied = index) (commit_eq : node.commitIndex = index)
    (covers : state.highest ≤ index) :
    Mid ((state.recordImage (.install index term image machineState)).record node) := by
  have noCommand : ∀ entry, node.log.entryAt entry.index = some entry → entry.type ≠ .command := by
    intro _ held
    rw [log_eq, entryAt_single] at held
    split at held
    · rw [← some.inj held]
      exact nofun
    · cases held
  have highest_eq : max state.highest node.commitIndex = index := by
    rw [commit_eq]
    exact max_eq_right covers
  constructor
  · exact le_of_eq (applied_eq.trans commit_eq.symm)
  · exact le_max_right _ _
  · show max state.highest node.commitIndex ≤ node.log.lastLogIndex
    rw [highest_eq, log_eq, lastLogIndex_single]
  · exact le_of_eq highest_eq.symm
  · exact mid.sorted_append
  · exact mid.bounded_append
  · exact fun entry held _ _ command => absurd command (noCommand entry held)
  · exact fun entry held _ command => absurd command (noCommand entry held)
  · exact fun entry held command _ => absurd command (noCommand entry held)
  · exact mid.ordered
  · exact mid.known_append
  · intro entry member _
    refine .inr (.inl ?_)
    have below := mid.bounded_append entry member
    rw [highest_eq] at below
    exact below

/-- A request that respects what is committed agrees with the log so far. -/
theorem Mid.keeps {entries : List RaftLogEntry} (respects : state.Respects (.gap entries)) :
    state.node.log.Keeps entries state.highest := by
  refine ⟨mid.highest_le, ?_⟩
  intro entry member below _ held
  have agrees := respects entry member below
  rw [held] at agrees
  exact eq_of_beq agrees

/-- What a section leaves of a change to the log and the indices. -/
theorem Mid.locked {taken : Section}
    (kept : state.Undisplaced grown (taken.change (some machine) state.node))
    (respects : state.Respects (taken.change (some machine) state.node)) :
    Mid (state.locked machine taken grown) := by
  have core := core_run (some machine) state.node taken
  have makes := makes_change (some machine) state.node taken
  have log_eq := congrArg Core.log core
  have commit_eq := congrArg Core.commitIndex core
  have applied_eq := congrArg Core.lastApplied core
  have within := le_trans mid.commit_le mid.highest_le
  rw [locked_eq kept]
  generalize taken.run (some machine) state.node = node at *
  -- A change that leaves the log and the last applied index alone.
  have unchanged : node.log = state.node.log → state.node.commitIndex ≤ node.commitIndex →
      node.commitIndex ≤ state.node.log.lastLogIndex → node.lastApplied = state.node.lastApplied →
      Mid (state.record node) := by
    intro log_eq raised bound applied_eq
    refine mid.extend ?_ ?_ applied_eq raised (log_eq ▸ bound)
    · exact fun index _ => congrArg (·.entryAt index) log_eq
    · exact log_eq ▸ mid.highest_le
  -- A merge keeps every index up to the highest commit index.
  have merged : ∀ {entries : List RaftLogEntry}, state.Respects (.gap entries) →
      node.log = (state.node.log.appendEntries entries).1 →
      node.lastApplied = state.node.lastApplied →
      (state.highest ≤ node.log.lastLogIndex → state.node.commitIndex ≤ node.commitIndex ∧
        node.commitIndex ≤ node.log.lastLogIndex) → Mid (state.record node) := by
    intro entries agrees log_eq applied_eq bounds
    have keeps := mid.keeps agrees
    have reaches : state.highest ≤ node.log.lastLogIndex := log_eq ▸ keeps.merged.1
    refine mid.extend ?_ reaches applied_eq (bounds reaches).1 (bounds reaches).2
    intro _ low
    rw [log_eq]
    exact (keeps.lower low).merged.2
  generalize taken.change (some machine) state.node = change at *
  cases change with
  | nothing | refuse _ =>
    exact unchanged log_eq (le_of_eq commit_eq.symm) (le_of_eq_of_le commit_eq within) applied_eq
  | push term type data =>
    dsimp only [Node.core, Change.apply] at log_eq commit_eq
    refine mid.extend ?_ ?_ applied_eq (le_of_eq commit_eq.symm) ?_
    · intro _ low
      rw [log_eq, entryAt_push_of_le _ (le_trans low mid.highest_le)]
    · rw [log_eq, lastLogIndex_push]
      exact Nat.le_succ_of_le mid.highest_le
    · rw [log_eq, commit_eq, lastLogIndex_push]
      exact Nat.le_succ_of_le within
  | merge entries leaderCommit =>
    dsimp only [Node.core, Change.apply] at log_eq commit_eq
    refine merged respects log_eq applied_eq fun _ => ?_
    have := mid.commit_le
    rw [← log_eq] at commit_eq
    split at commit_eq
    all_goals omega
  | gap _ =>
    have commit_eq : node.commitIndex = state.node.commitIndex := commit_eq
    refine merged respects log_eq applied_eq fun reaches => ?_
    rw [commit_eq]
    exact ⟨le_refl _, le_trans mid.commit_le reaches⟩
  | commit index =>
    dsimp only [Change.apply] at log_eq commit_eq
    have bounds := advanceCommit_bounds state.node within
    rw [← makes.2, ← commit_eq] at bounds
    exact unchanged log_eq bounds.1 bounds.2 applied_eq
  | install _ _ _ _ => exact mid.image log_eq applied_eq commit_eq respects
  | compact _ =>
    dsimp only [Node.core, Change.apply] at log_eq
    cases found : state.node.log.entryAt state.node.lastApplied with
    | none =>
      rw [found] at log_eq
      exact unchanged log_eq (le_of_eq commit_eq.symm) (le_of_eq_of_le commit_eq within) applied_eq
    | some last =>
      rw [found] at log_eq
      rw [map_some, getD_some] at log_eq
      have index_eq := (state.node.log.entryAt_some found).1
      refine mid.compact ?_ ?_ applied_eq commit_eq respects
      · intro _ held
        rw [log_eq, entryAt_single] at held
        split at held
        · rw [← some.inj held, index_eq]
          exact found
        · cases held
      · rw [log_eq, lastLogIndex_single, index_eq]
        exact respects

/-- A section leaves the log alone up to the highest commit index, or it clears the vector and
leaves nothing to apply. -/
theorem Mid.entryAt_run (taken : Section)
    (respects : state.Respects (taken.change (some machine) state.node)) :
    (∀ index ≤ state.highest, (taken.run (some machine) state.node).log.entryAt index =
        state.node.log.entryAt index) ∨
      (∀ grown flight,
        displaces state.node grown flight (taken.change (some machine) state.node) = true) ∧
      (taken.run (some machine) state.node).commitIndex ≤
        (taken.run (some machine) state.node).lastApplied := by
  have core := core_run (some machine) state.node taken
  have log_eq := congrArg Core.log core
  have commit_eq := congrArg Core.commitIndex core
  have applied_eq := congrArg Core.lastApplied core
  generalize taken.run (some machine) state.node = node at *
  generalize taken.change (some machine) state.node = change at *
  cases change with
  | nothing | commit _ | refuse _ =>
    exact .inl fun index _ => congrArg (·.entryAt index) log_eq
  | push _ _ _ =>
    refine .inl fun index low => (congrArg (·.entryAt index) log_eq).trans ?_
    exact entryAt_push_of_le _ (le_trans low mid.highest_le)
  | merge _ _ | gap _ =>
    refine .inl fun index low => (congrArg (·.entryAt index) log_eq).trans ?_
    exact ((mid.keeps respects).lower low).merged.2
  | install _ _ _ _ => exact .inr ⟨fun _ _ => rfl, le_of_eq (commit_eq.trans applied_eq.symm)⟩
  | compact _ =>
    dsimp only [Node.core, Change.apply] at log_eq
    cases found : state.node.log.entryAt state.node.lastApplied with
    | none =>
      rw [found] at log_eq
      exact .inl fun index _ => congrArg (·.entryAt index) log_eq
    | some _ =>
      refine .inr ⟨fun _ _ => by rw [displaces, found]; rfl, ?_⟩
      rw [show node.commitIndex = _ from commit_eq, show node.lastApplied = _ from applied_eq]
      exact le_trans mid.commit_le respects

end

/-- A section that does not call `ApplyCommitted` leaves nothing to apply. -/
theorem idle_of_not_applies {taken : Section} (applies : taken.applies node = false)
    (idle : node.commitIndex ≤ node.lastApplied) :
    (taken.run (some machine) node).commitIndex ≤ (taken.run (some machine) node).lastApplied := by
  have core := core_run (some machine) node taken
  have makes := makes_change (some machine) node taken
  have commit_eq := congrArg Core.commitIndex core
  have applied_eq := congrArg Core.lastApplied core
  change (taken.run (some machine) node).commitIndex = _ at commit_eq
  change (taken.run (some machine) node).lastApplied = _ at applied_eq
  rw [commit_eq, applied_eq]
  generalize taken.change (some machine) node = change at *
  cases change with
  | merge _ _ =>
    obtain ⟨req, rfl, rfl, rfl, accepted, merged⟩ := makes
    have low : ¬ node.commitIndex < req.leaderCommit := by
      simpa [Section.applies, acceptApplies, accepted, merged] using applies
    show (if node.commitIndex < req.leaderCommit then _ else node.commitIndex) ≤ node.lastApplied
    rw [if_neg low]
    exact idle
  | commit _ =>
    obtain ⟨rfl, rfl⟩ := makes
    have follower : node.role ≠ .leader := by
      simpa [Section.applies] using applies
    rw [advanceCommit, if_pos follower]
    exact idle
  | install _ _ _ _ => exact le_refl _
  | nothing | push _ _ _ | gap _ | refuse _ | compact _ => exact idle

/-! ## `ApplyCommitted` -/

/-- Two entries under one index are the same. -/
theorem held_inj {log : RaftLog}
    (held : log.entryAt first.index = some first) (also : log.entryAt second.index = some second)
    (same : first.index = second.index) : first = second := by
  rw [same, also] at held
  exact (some.inj held).symm

/-- A thread applies everything up to the commit index, or starts the next command. -/
theorem Mid.enter (mid : Mid state) (thread : Nat) : Mid (state.enter thread) := by
  rcases state.enter_cases with
    ⟨entry, same, _, held, command, behind, below, between⟩ | ⟨index, same, _, last, between⟩
  · rw [same]
    have low := le_trans below mid.commit_le
    have recorded := mid.recorded entry held (Nat.zero_lt_of_lt behind) low command
    have begun_eq : begun (state.trace ++ [.began (entry.index, entry.data)]) =
        begun state.trace ++ [(entry.index, entry.data)] := begun_append
    refine { mid with applied_le := below, ahead := ?_, ordered := ?_, known := ?_, pending := ?_ }
    · intro other stored otherCommand beyond call member
      rw [launch, begun_eq, mem_append, mem_singleton] at member
      rcases member with earlier | rfl
      · exact mid.ahead other stored otherCommand (lt_trans behind beyond) call earlier
      · exact beyond
    · rw [launch, begun_eq, pairwise_append]
      refine ⟨mid.ordered, pairwise_singleton _ _, ?_⟩
      intro earlier member _ last
      rw [mem_singleton.mp last]
      exact mid.ahead entry held command behind earlier member
    · intro call member
      rw [launch, begun_eq, mem_append, mem_singleton] at member
      rcases member with earlier | rfl
      · exact mid.known call earlier
      · exact ⟨entry, recorded, command, rfl⟩
    · intro other member otherCommand
      rw [launch, begun_eq]
      rcases mid.pending other member otherCommand with applied | covered | ⟨later, upper, stored⟩
      · exact .inl (mem_append_left _ applied)
      · exact .inr (.inl covered)
      · rcases lt_trichotomy other.index entry.index with before | same | beyond
        · exact absurd otherCommand (between other stored later (Nat.le_sub_one_of_lt before))
        · rw [held_inj stored held same]
          exact .inl (mem_append_right _ mem_cons_self)
        · exact .inr (.inr ⟨beyond, upper, stored⟩)
  · obtain rfl : index = state.node.commitIndex := last.trans (max_eq_right mid.applied_le)
    rw [same]
    refine { mid with applied_le := le_refl _, ahead := ?_, pending := ?_ }
    · exact fun other stored otherCommand beyond =>
        mid.ahead other stored otherCommand (lt_of_le_of_lt mid.applied_le beyond)
    intro other member otherCommand
    rcases mid.pending other member otherCommand with applied | covered | ⟨later, upper, stored⟩
    · exact .inl applied
    · exact .inr (.inl covered)
    · exact absurd otherCommand (between other stored later upper)

/-- A thread that is alone runs `ApplyCommitted`. -/
theorem Mid.inv_enter (mid : Mid state) (oneCall : OneCall state) (quiet : state.flights = []) :
    Inv (state.enter thread) := by
  have after := mid.enter thread
  obtain ⟨running, runs, calls⟩ := oneCall
  rw [unfinished, quiet] at calls
  obtain rfl : running = none := toList_eq_nil_iff.mp calls.symm
  rcases state.enter_cases with ⟨entry, same, _, held, command, _⟩ | ⟨_, same, _, last, _⟩
  · rw [same] at after ⊢
    have unfinished_eq : (state.launch thread entry).unfinished =
        [⟨thread, entry.index, entry.data, false, false⟩] := by
      rw [unfinished, launch, quiet]
      rfl
    refine ⟨after, .inr ⟨cons_ne_nil _ _, entry, held, command, ?_⟩, ?_, ?_, ?_⟩
    · rw [launch, begun_append]
      exact mem_append_right _ mem_cons_self
    · refine ⟨some (entry.index, entry.data), runningAfter_concat runs, ?_⟩
      rw [unfinished_eq]
      rfl
    · rw [launch, quiet]
      exact le_refl _
    · rw [unfinished_eq]
      intro _ member
      rw [mem_singleton.mp member]
  · rw [same] at after ⊢
    obtain rfl := last.trans (max_eq_right mid.applied_le)
    have none_running : state.unfinished = [] := by
      rw [unfinished, quiet]
      rfl
    refine ⟨after, .inl ⟨none_running, le_refl _⟩, ⟨none, runs, ?_⟩, ?_, ?_⟩
    · exact congrArg (map Flight.call) none_running
    · exact le_of_eq_of_le (congrArg length quiet) (Nat.zero_le _)
    · intro flight member
      have member : flight ∈ state.unfinished := member
      rw [none_running] at member
      cases member

/-- A flight that runs is the only one. -/
theorem OneCall.only (oneCall : OneCall state) (member : flight ∈ state.unfinished) :
    state.unfinished = [flight] ∧ runningAfter state.trace = some (some flight.call) := by
  obtain ⟨running, after, calls⟩ := oneCall
  cases running with
  | none =>
    rw [map_eq_nil_iff.mp calls] at member
    cases member
  | some _ =>
    obtain ⟨_, alone, same⟩ := map_eq_singleton_iff.mp calls
    rw [alone, mem_singleton] at member
    rw [member]
    exact ⟨alone, same.symm ▸ after⟩

theorem mem_unfinished_of_runningOf (found : state.runningOf thread = some flight) :
    flight ∈ state.unfinished := by
  have holds := find?_some found
  rw [Bool.and_eq_true] at holds
  exact mem_filter.mpr ⟨mem_of_find?_eq_some found, holds.2⟩

/-- When the only call that runs is finished, none runs. -/
theorem unfinished_finish (alone : state.unfinished = [flight]) :
    (state.finishFlight machine flight read).unfinished = [] := by
  refine filter_eq_nil_iff.mpr ?_
  intro _ member
  obtain ⟨before, listed, rfl⟩ := mem_map.mp member
  split
  · exact nofun
  rename_i differs
  intro open_
  have running : before ∈ state.unfinished := mem_filter.mpr ⟨listed, open_⟩
  rw [alone, mem_singleton] at running
  exact differs (congrArg Flight.thread running)

theorem begun_ended (trace : List (CallEvent (Nat × Bytes))) (call : Nat × Bytes) :
    begun (trace ++ [.ended call]) = begun trace := by
  rw [begun_append]
  exact append_nil _

/-- The end of a call touches neither the log nor the indices. -/
theorem Mid.finish (mid : Mid state) : Mid (state.finishFlight machine flight read) := by
  have begun_eq := begun_ended state.trace (flight.index, flight.given read)
  exact { mid with
    ahead := begun_eq.symm ▸ mid.ahead
    ordered := begun_eq.symm ▸ mid.ordered
    known := begun_eq.symm ▸ mid.known
    pending := begun_eq.symm ▸ mid.pending }

/-- A call whose reference leads to the entry is given the entry's data. -/
theorem Inv.given_eq (inv : Inv state) (running : flight ∈ state.unfinished) :
    flight.given read = flight.data := by
  rw [Flight.given, inv.upToDate flight running]
  rfl

/-- The state machine finishes the call that runs. -/
theorem Inv.finish (inv : Inv state) (running : flight ∈ state.unfinished) :
    Inv (state.finishFlight machine flight read) := by
  obtain ⟨alone, after⟩ := inv.oneCall.only running
  have none_running := @unfinished_finish _ machine state flight read alone
  refine ⟨inv.toMid.finish, .inr ?_, ⟨none, ?_, ?_⟩, ?_, ?_⟩
  · rcases inv.idle with ⟨empty, _⟩ | ⟨_, entry, held, command, began⟩
    · rw [empty] at running
      cases running
    · refine ⟨fun empty => ?_, entry, held, command, (begun_ended ..).symm ▸ began⟩
      have none_left := map_eq_nil_iff.mp empty
      rw [unfinished, none_left] at running
      cases running
  · rw [finishFlight, inv.given_eq running]
    exact (runningAfter_concat after).trans (if_pos rfl)
  · rw [none_running]
    rfl
  · exact le_of_eq_of_le (length_map _) inv.single
  · rw [none_running]
    exact nofun

/-- A thread whose call is finished leaves the calls that run alone. -/
theorem unfinished_land (finished : state.runningOf thread = none) :
    (state.land thread).unfinished = state.unfinished := by
  unfold unfinished land
  rw [List.filter_filter]
  refine filter_congr ?_
  intro flight member
  have closed := find?_eq_none.mp finished flight member
  cases done : flight.finished with
  | true => rfl
  | false =>
    rw [done] at closed
    have other : (flight.thread == thread) = false := by
      simpa using closed
    simp [bne, other]

theorem Mid.land (mid : Mid state) : Mid (state.land thread) := { mid with }

theorem OneCall.land (oneCall : OneCall state) (finished : state.runningOf thread = none) :
    OneCall (state.land thread) := by
  unfold OneCall
  rw [unfinished_land finished]
  exact oneCall

/-- The only call is that of the thread that leaves `Apply`. -/
theorem Inv.flights_land (inv : Inv state) (busy : state.busy thread = true) :
    (state.land thread).flights = [] := by
  obtain ⟨flight, member, same⟩ := any_eq_true.mp busy
  obtain ⟨only, flights_eq⟩ := length_eq_one_iff.mp
    (le_antisymm inv.single (length_pos_of_mem member))
  rw [flights_eq, mem_singleton] at member
  rw [land, flights_eq, ← member]
  simpa using same

section

variable {taken : Section}
variable (kept : state.Undisplaced grown (taken.change (some machine) state.node))
include kept

/-- A section that displaces nothing leaves the calls under way alone. -/
theorem flights_locked :
    (state.locked machine taken grown).flights = state.flights ∧
      (state.locked machine taken grown).trace = state.trace := by
  rw [locked_eq kept]
  cases taken.change (some machine) state.node with
  | _ => exact ⟨rfl, rfl⟩

theorem OneCall.locked (oneCall : OneCall state) :
    OneCall (state.locked machine taken grown) := by
  obtain ⟨flights_eq, trace_eq⟩ := flights_locked kept
  unfold OneCall unfinished
  rw [trace_eq, flights_eq]
  exact oneCall

/-- A section that does not call `ApplyCommitted`. -/
theorem Inv.locked (inv : Inv state)
    (respects : state.Respects (taken.change (some machine) state.node))
    (silent : taken.applies state.node = false) : Inv (state.locked machine taken grown) := by
  obtain ⟨flights_eq, trace_eq⟩ := flights_locked kept
  have unfinished_eq : (state.locked machine taken grown).unfinished = state.unfinished := by
    rw [unfinished, flights_eq]
    rfl
  refine ⟨inv.toMid.locked kept respects, ?_, inv.oneCall.locked kept, flights_eq ▸ inv.single,
    unfinished_eq ▸ inv.upToDate⟩
  rw [unfinished_eq, flights_eq, HoldsBegun, trace_eq]
  rcases inv.idle with ⟨quiet, applied⟩ | ⟨busy, entry, held, command, began⟩
  · exact .inl ⟨quiet, idle_of_not_applies silent applied⟩
  · rcases inv.toMid.entryAt_run taken respects with same | ⟨moved, applied⟩
    · exact .inr ⟨busy, entry, (same _ (inv.begun_le began)).trans held, command, began⟩
    · refine .inl ⟨eq_nil_iff_forall_not_mem.mpr fun flight running => ?_, applied⟩
      cases (kept flight running).symm.trans (moved grown flight)

end

theorem Inv.step (inv : Inv state) {event : ThreadEvent} (orderly : state.Orderly machine event) :
    Inv (state.step machine event) := by
  generalize stepped : state.step machine event = later
  cases steps_of_step stepped with
  | same => exact inv
  | locked free silent =>
    obtain ⟨kept, respects, _⟩ := orderly free
    exact inv.locked kept respects silent
  | enter free applies =>
    obtain ⟨kept, respects, alone⟩ := orderly free
    refine (inv.toMid.locked kept respects).inv_enter (inv.oneCall.locked kept) ?_
    rw [(flights_locked kept).1]
    exact alone applies
  | finish found => exact inv.finish (mem_unfinished_of_runningOf found)
  | resume busy finished =>
    exact inv.toMid.land.inv_enter (inv.oneCall.land finished) (inv.flights_land busy)
  | setServer => exact { inv with }
  | restart => exact orderly.elim

/-! ## Calls come to an end -/

/-- The entries that the threads have still to pass, and the steps of the calls under way. -/
def remaining (state : Threads σ) : Nat :=
  2 * (state.node.commitIndex - state.node.lastApplied) + state.flights.length +
    state.unfinished.length

theorem remaining_finish (inv : Inv state) (running : flight ∈ state.unfinished) :
    (state.finishFlight machine flight read).remaining < state.remaining := by
  have count : (state.finishFlight machine flight read).flights.length = state.flights.length :=
    length_map _
  obtain ⟨alone, _⟩ := inv.oneCall.only running
  unfold remaining
  rw [count, alone, unfinished_finish alone]
  exact Nat.lt_succ_self _

theorem remaining_enter : (state.enter thread).remaining ≤ state.remaining := by
  rcases state.enter_cases with ⟨entry, same, _, _, _, _, _, _⟩ | ⟨index, same, _, _, _⟩
  · rw [same, remaining, remaining]
    show 2 * (state.node.commitIndex - entry.index) + (state.flights.length + 1) +
      (state.unfinished.length + 1) ≤ _
    omega
  · rw [same]
    unfold remaining
    show 2 * (state.node.commitIndex - index) + state.flights.length + state.unfinished.length ≤ _
    omega

theorem remaining_land (member : flight ∈ state.flights) (quiet : state.unfinished = []) :
    (state.land flight.thread).remaining < state.remaining := by
  have fewer : (state.land flight.thread).flights.length < state.flights.length := by
    refine length_filter_lt_length_iff_exists.mpr ⟨flight, member, ?_⟩
    simp
  have none_left : (state.land flight.thread).unfinished = [] := by
    refine filter_eq_nil_iff.mpr ?_
    intro other listed
    exact filter_eq_nil_iff.mp quiet other (mem_of_mem_filter listed)
  unfold remaining
  rw [none_left, quiet]
  show 2 * (state.node.commitIndex - state.node.lastApplied) + _ + _ < _
  omega

/-- The state machine is done with a call, or the thread goes on behind it. -/
def Completing (event : ThreadEvent) : Prop :=
  ∃ thread read, event = .finish thread read ∨ event = .resume thread

theorem orderly_of_completing {event : ThreadEvent} (completing : Completing event) :
    state.Orderly machine event := by
  obtain ⟨_, _, rfl | rfl⟩ := completing <;> trivial

/-- From every state the state machine and the threads that wait for it come to an end, without any
further section. -/
theorem Inv.completes (inv : Inv state) :
    ∃ events, (∀ event ∈ events, Completing event) ∧
      (Runs.run (Threads.step machine) state events).flights = [] := by
  induction size : state.remaining using Nat.strongRecOn generalizing state with
  | ind count ih =>
    -- One event that makes the rest smaller, and what follows it.
    have extend : ∀ event, Completing event → (state.step machine event).remaining < count →
        ∃ events, (∀ event ∈ events, Completing event) ∧
          (Runs.run (Threads.step machine) state events).flights = [] := by
      intro event kind smaller
      obtain ⟨events, kinds, empty⟩ := ih _ smaller (inv.step (orderly_of_completing kind)) rfl
      exact ⟨event :: events, forall_mem_cons.mpr ⟨kind, kinds⟩, empty⟩
    cases flights_eq : state.flights with
    | nil => exact ⟨[], nofun, flights_eq⟩
    | cons first _ =>
      have listed : first ∈ state.flights := flights_eq ▸ mem_cons_self
      cases running_eq : state.unfinished with
      | cons flight _ =>
        have running : flight ∈ state.unfinished := running_eq ▸ mem_cons_self
        refine extend (.finish flight.thread []) ⟨_, _, .inl rfl⟩ ?_
        have found : ∃ other, state.runningOf flight.thread = some other := by
          refine isSome_iff_exists.mp (find?_isSome.mpr ⟨flight, ?_, ?_⟩)
          · exact mem_of_mem_filter running
          · rw [beq_self_eq_true]
            exact (mem_filter.mp running).2
        obtain ⟨_, found⟩ := found
        rw [Threads.step, found, ← size]
        exact remaining_finish inv (mem_unfinished_of_runningOf found)
      | nil =>
        have finished : state.runningOf first.thread = none := by
          cases found : state.runningOf first.thread with
          | none => rfl
          | some _ =>
            have running := mem_unfinished_of_runningOf found
            rw [running_eq] at running
            cases running
        have busy : state.busy first.thread = true :=
          any_eq_true.mpr ⟨first, listed, beq_self_eq_true _⟩
        refine extend (.resume first.thread) ⟨_, [], .inr rfl⟩ ?_
        rw [Threads.step, if_pos ⟨busy, finished⟩, ← size]
        exact lt_of_le_of_lt remaining_enter (remaining_land listed running_eq)

/-! ## Once and in order -/

/-- The calls of `Apply` come one after another, in the order of the indices, and only for committed
commands. A command in front of one that began, and every committed command once no call is
under way, was applied once, unless an installed image covers it. -/
structure AppliedInOrder (state : Threads σ) : Prop where
  serial : Serial state.trace
  ordered : (begun state.trace).Pairwise (·.1 < ·.1)
  commands : ∀ call ∈ begun state.trace, ∃ entry ∈ state.committed, entry.type = .command ∧
    call = (entry.index, entry.data)
  atMostOnce : ∀ call, state.trace.count (.ended call) ≤ 1
  inTurn : ∀ call ∈ begun state.trace, ∀ entry ∈ state.committed, entry.type = .command →
    entry.index < call.1 →
    state.trace.count (.ended (entry.index, entry.data)) = 1 ∨ entry.index ≤ state.floor
  complete : state.flights = [] → ∀ entry ∈ state.committed, entry.type = .command →
    state.trace.count (.ended (entry.index, entry.data)) = 1 ∨ entry.index ≤ state.floor

theorem Inv.appliedInOrder (inv : Inv state) : AppliedInOrder state := by
  obtain ⟨_, after, calls⟩ := inv.oneCall
  have asymmetric : ∀ first second : Nat × Bytes, first.1 < second.1 → ¬ second.1 < first.1 :=
    fun _ _ earlier => lt_asymm earlier
  constructor
  · rw [Serial, after]
    rfl
  · exact inv.ordered
  · exact inv.known
  · exact count_ended_le asymmetric after inv.ordered
  · intro call member entry committed command earlier
    rcases inv.pending entry committed command with began | covered | ⟨behind, _, held⟩
    · exact .inl (count_ended_of_before asymmetric after inv.ordered began member earlier)
    · exact .inr covered
    · exact absurd (inv.ahead entry held command behind call member) (lt_asymm earlier)
  · intro quiet _ committed command
    have applied := (inv.idle.resolve_right fun busy => busy.1 quiet).2
    rcases inv.settled applied committed command with began | covered
    · refine .inl (count_ended_of_done asymmetric after inv.ordered ?_)
      rw [unfinished, quiet] at calls
      rw [begun_eq after, ← calls] at began
      exact append_nil (done state.trace) ▸ began
    · exact .inr covered

/-- In every run of a process in which calls of `ApplyCommitted` do not overlap and no section
displaces an entry that is being applied, entries are applied once and in order, and the calls
under way come to an end. -/
theorem applied_once_in_order (machine : StateMachine σ) (node : Node σ)
    (events : List ThreadEvent)
    (orderly : Runs.Meets (step machine) (Orderly machine) (start node) events) :
    AppliedInOrder (Runs.run (step machine) (start node) events) ∧
      ∃ further, (∀ event ∈ further, Completing event) ∧
        AppliedInOrder (Runs.run (step machine) (start node) (events ++ further)) ∧
        (Runs.run (step machine) (start node) (events ++ further)).flights = [] := by
  have reached : Inv (run (step machine) (start node) events) :=
    orderly.invariant (inv_start) fun _ _ inv meets => inv.step meets
  obtain ⟨further, kinds, empty⟩ := reached.completes
  have final : Inv (run (step machine) (run (step machine) (start node) events) further) :=
    (meets_of_forall kinds).invariant reached fun _ _ inv kind =>
      inv.step (orderly_of_completing kind)
  rw [← run_append] at final empty
  exact ⟨reached.appliedInOrder, further, kinds, final.appliedInOrder, empty⟩

instance (state : Threads σ) : ∀ change, Decidable (state.Respects change) := by
  intro change
  unfold Respects
  split <;> infer_instance

instance (state : Threads σ) (change : Change σ) : Decidable (state.Undisplaced grown change) :=
  inferInstanceAs (Decidable (∀ flight ∈ _, _))

instance (machine : StateMachine σ) (state : Threads σ) :
    ∀ event, Decidable (state.Orderly machine event) := by
  intro event
  unfold Orderly
  split <;> infer_instance

/-- The leader's first two commands, of which so many are committed. -/
def twoCommands (leaderCommit : Nat) : Section :=
  sentBehind 0
    [{ index := 1, term := 1, type := .command, data := [1] },
     { index := 2, term := 1, type := .command, data := [2] }] leaderCommit

/-- One thread applies two entries. -/
theorem applied_once_in_order_twoCommands :
    AppliedInOrder (Runs.run (step imageMachine) (start freshVoter)
      [.locked 0 (twoCommands 2) true, .finish 0 [], .locked 1 .electionTimeout false, .resume 0,
        .finish 0 []]) :=
  (applied_once_in_order imageMachine freshVoter
    [.locked 0 (twoCommands 2) true, .finish 0 [], .locked 1 .electionTimeout false, .resume 0,
      .finish 0 []] (by decide +kernel)).1

/-- The new leader's entries, acknowledged by the second voter. -/
def secondVoterReply : Section :=
  .leader (.appendReply 1
    { term := 2
      leaderId := 1
      prevLogIndex := 2
      prevLogTerm := 1
      entries := [{ index := 3, term := 2, type := .noOp }]
      leaderCommit := 1 }
    { term := 2, success := true })

/-- The node is elected while an RPC thread is inside `Apply`, and the second voter acknowledges its
no-op. -/
def electedMeanwhile : List ThreadEvent :=
  [.locked 0 (twoCommands 1) true, .locked 2 .electionTimeout false, .locked 2 .winElection false,
    .locked 1 secondVoterReply false]

/-- An RPC thread is inside `Apply` of the first entry when the node is elected. The replication
thread commits the second entry and starts its `Apply` before the first one has returned. -/
theorem new_leader_overtakes_apply :
    let overtaken := run (step imageMachine) (start freshVoter)
      (electedMeanwhile ++ [.locked 1 (.leader .advanceCommitIndex) false])
    overtaken.trace = [.began (1, [1]), .began (2, [2])] ∧ ¬ AppliedInOrder overtaken := by
  have trace_eq : (run (step imageMachine) (start freshVoter)
      (electedMeanwhile ++ [.locked 1 (.leader .advanceCommitIndex) false])).trace =
      [.began (1, [1]), .began (2, [2])] := by decide +kernel
  refine ⟨trace_eq, ?_⟩
  intro ordered
  have serial := ordered.serial
  rw [trace_eq] at serial
  cases serial

end Threads

end LightKV.Raft
