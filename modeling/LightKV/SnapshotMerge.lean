import LightKV.CompactionMerge

/-!
# Merging under a snapshot

A worker that is given an oldest snapshot keeps more than the newest version of a key: it
drops a version only behind one of its key that this snapshot already sees. The loop is
followed once more, for arbitrary snapshots and output sizes. At any point every input
version is still pending, or written, or *shadowed*: a version of its key is written that
is at least as new and not above the oldest snapshot. A reader at or above the oldest
snapshot sees that version before it would see the one dropped.
-/

namespace LightKV

open Versions List MergeState

/-- The newest version of a key that a reader at the snapshot sees. -/
def NewestAt (snapshot : Nat) (entries : List Entry) (key : Bytes) (entry : Entry) : Prop :=
  Newest Entry.key Entry.seq {other | other ∈ entries ∧ other.seq ≤ snapshot} key entry

/-- No key has two versions with one sequence number. -/
def Distinct (entries : List Entry) : Prop :=
  ∀ first ∈ entries, ∀ second ∈ entries,
    first.key = second.key → first.seq = second.seq → first = second

theorem distinct_of_pairwise (apart : entries.Pairwise fun first second => ¬ (first.key =
      second.key ∧ first.seq = second.seq)) : Distinct entries := by
  intro _ in_first _ in_second same_key same_seq
  by_contra different
  rcases related_or apart in_first in_second different with distinct | distinct
  · exact distinct ⟨same_key, same_seq⟩
  · exact distinct ⟨same_key.symm, same_seq.symm⟩

namespace MergeState

/-- A written version of the key is at least as new, and the oldest snapshot sees it. -/
def Shadowed (oldestSnapshot : Nat) (state : MergeState) (entry : Entry) : Prop :=
  ∃ newer ∈ state.written, newer.key = entry.key ∧ entry.seq ≤ newer.seq ∧
    newer.seq ≤ oldestSnapshot

/-- What holds before each round. -/
structure Keeps (inputs : List SSTable) (oldestSnapshot : Nat) (state : MergeState) : Prop where
  sorted : ∀ source ∈ state.sources, Sorted Entry.key Entry.seq source.rest
  origin : ∀ entry, entry ∈ state.written ∨ state.Pending entry → entry ∈ versionsOf inputs
  ordered : Sorted Entry.key Entry.seq state.written
  precedes : ∀ entry ∈ state.written, ∀ other, state.Pending other → SeqBefore entry other
  last : state.lastKey ≠ [] → ∃ final ∈ state.written,
    final.key = state.lastKey ∧ final.seq = state.lastSeqWritten
  kept : ∀ entry ∈ versionsOf inputs,
    state.Pending entry ∨ entry ∈ state.written ∨ state.Shadowed oldestSnapshot entry

variable {inputs : List SSTable} {oldestSnapshot : Nat} {state : MergeState} {best : Pick}

theorem keeps_start {nextFileId : Nat}
    (sorted : ∀ table ∈ inputs, Sorted Entry.key Entry.seq table.entries) :
    Keeps inputs oldestSnapshot (start options nextFileId inputs) where
  sorted := by
    intro _ member
    obtain ⟨table, inside, rfl⟩ := mem_map.mp member
    exact sorted table inside
  origin := by
    rintro _ (written | ⟨_, member, inside⟩)
    · exact absurd written not_mem_nil
    · obtain ⟨table, in_inputs, rfl⟩ := mem_map.mp member
      exact mem_versionsOf.mpr ⟨table, in_inputs, inside⟩
  ordered := List.Pairwise.nil
  precedes _ member := absurd member not_mem_nil
  last nonempty := absurd rfl nonempty
  kept entry member := by
    obtain ⟨table, in_inputs, inside⟩ := mem_versionsOf.mp member
    exact .inl ⟨⟨table.fileId, table.entries⟩, mem_map.mpr ⟨table, in_inputs, rfl⟩, inside⟩

namespace Keeps

/-- Exchanging the picked source for its end keeps the sources sorted. -/
theorem sorted_exchanged (keeps : Keeps inputs oldestSnapshot state)
    (picked : pick state.sources = some best)
    (sublist : shorter.Sublist (best.entry :: best.rest)) :
    ∀ source ∈ best.front ++ ⟨best.fileId, shorter⟩ :: best.back,
      Sorted Entry.key Entry.seq source.rest :=
  forall_exchanged picked keeps.sorted ((keeps.sorted _ (picked_mem picked)).sublist sublist)

section

variable (keeps : Keeps inputs oldestSnapshot state)
include keeps

/-- Dropping the versions of the key just written, which the oldest snapshot sees. -/
theorem skip (picked : pick state.sources = some best) (nonempty : state.lastKey ≠ [])
    (seen : state.lastSeqWritten ≤ oldestSnapshot) :
    Keeps inputs oldestSnapshot (state.skip best) := by
  have fewer : ∀ {other}, (state.skip best).Pending other → state.Pending other :=
    fun still => (MergeInv.pending_skip picked).mpr (.inr still)
  obtain ⟨final, final_written, final_key, final_seq⟩ := keeps.last nonempty
  exact
    { sorted := keeps.sorted_exchanged picked (dropWhile_sublist _)
      origin := fun entry known => keeps.origin entry (known.imp_right fewer)
      ordered := keeps.ordered
      precedes := fun entry member other pending =>
        keeps.precedes entry member other (fewer pending)
      last := keeps.last
      kept := by
        intro entry member
        rcases keeps.kept entry member with pending | settled
        · rcases (MergeInv.pending_skip picked).mp pending with gone | still
          · have same : entry.key = state.lastKey := by simpa using mem_takeWhile_imp gone
            have key_eq : final.key = entry.key := final_key.trans same.symm
            have newer := (keeps.precedes final final_written entry pending).rank_le key_eq
            exact .inr (.inr ⟨final, final_written, key_eq, newer, final_seq ▸ seen⟩)
          · exact .inl still
        · exact .inr settled }

/-- Writing the picked version. -/
theorem write (picked : pick state.sources = some best) :
    Keeps inputs oldestSnapshot (state.write best) := by
  have fewer : ∀ {other}, (state.write best).Pending other → state.Pending other :=
    fun still => (MergeInv.pending_write picked).mpr (.inr still)
  have written_eq := MergeInv.written_write state best
  have itself : best.entry ∈ (state.write best).written := by simp [written_eq]
  have old : ∀ {entry}, entry ∈ state.written → entry ∈ (state.write best).written := by
    intro _ member
    rw [written_eq]
    exact mem_append_left _ member
  have pending := MergeInv.picked_pending picked
  refine ⟨keeps.sorted_exchanged picked (sublist_cons_self _ _), ?_, ?_, ?_, ?_, ?_⟩
  · rintro entry (member | still)
    · rw [written_eq, mem_append, mem_singleton] at member
      rcases member with before | rfl
      · exact keeps.origin entry (.inl before)
      · exact keeps.origin _ (.inr pending)
    · exact keeps.origin entry (.inr (fewer still))
  · rw [written_eq]
    refine pairwise_append.mpr ⟨keeps.ordered, pairwise_singleton _ _, ?_⟩
    intro entry member _ single
    rw [mem_singleton.mp single]
    exact keeps.precedes entry member best.entry pending
  · intro entry member other still
    rw [written_eq, mem_append, mem_singleton] at member
    rcases member with before | rfl
    · exact keeps.precedes entry before other (fewer still)
    · exact MergeInv.first_of_sorted picked keeps.sorted (fewer still)
  · intro _
    exact ⟨best.entry, itself, rfl, rfl⟩
  · intro entry member
    rcases keeps.kept entry member with waiting | before | ⟨newer, inside, facts⟩
    · rcases (MergeInv.pending_write picked).mp waiting with rfl | still
      · exact .inr (.inl itself)
      · exact .inl still
    · exact .inr (.inl (old before))
    · exact .inr (.inr ⟨newer, old inside, facts⟩)

/-- Closing the current output moves its versions. -/
theorem startNewOutput :
    Keeps inputs oldestSnapshot (state.startNewOutput options) := by
  have written_eq := MergeInv.written_startNewOutput state options
  refine ⟨keeps.sorted, ?_, ?_, ?_, fun nonempty => absurd rfl nonempty, ?_⟩
  · rw [written_eq]
    exact keeps.origin
  · rw [written_eq]
    exact keeps.ordered
  · rw [written_eq]
    exact keeps.precedes
  · unfold Shadowed
    rw [written_eq]
    exact keeps.kept

/-- One round keeps the invariant. -/
theorem round (picked : pick state.sources = some best) :
    Keeps inputs oldestSnapshot (state.round options target oldestSnapshot best) := by
  unfold MergeState.round
  split
  · rename_i duplicate
    exact keeps.skip picked duplicate.1 duplicate.2.2
  · split
    · exact (keeps.write picked).startNewOutput
    · exact keeps.write picked

/-- The whole loop keeps the invariant. -/
theorem loop (options : Options) (target fuel : Nat) :
    Keeps inputs oldestSnapshot (state.loop options target oldestSnapshot fuel) :=
  loop_keeps (fun picked keeps => keeps.round picked) keeps fuel

/-- At the end every input version is written or shadowed. -/
theorem settled (finished : pick state.sources = none) (member : entry ∈ versionsOf inputs) :
    entry ∈ state.written ∨ state.Shadowed oldestSnapshot entry := by
  rcases keeps.kept entry member with ⟨source, inside, still⟩ | settled
  · rw [rest_eq_nil_of_pick finished source inside] at still
    exact absurd still not_mem_nil
  · exact settled

/-- A reader at or above the oldest snapshot sees the same version in what is written as in
the inputs. -/
theorem newestAt_iff (finished : pick state.sources = none)
    (distinct : Distinct (versionsOf inputs)) (above : oldestSnapshot ≤ snapshot) :
    NewestAt snapshot state.written key entry ↔
      NewestAt snapshot (versionsOf inputs) key entry := by
  constructor
  · rintro ⟨⟨written, seen⟩, same, newest⟩
    refine ⟨⟨keeps.origin entry (.inl written), seen⟩, same, ?_⟩
    rintro other ⟨member, other_seen⟩ other_key
    rcases keeps.settled finished member with also_written | ⟨newer, inside, key_eq, at_least, low⟩
    · exact newest other ⟨also_written, other_seen⟩ other_key
    · exact le_trans at_least (newest newer ⟨inside, le_trans low above⟩ (key_eq.trans other_key))
  · rintro ⟨⟨member, seen⟩, same, newest⟩
    refine ⟨⟨?_, seen⟩, same, ?_⟩
    · rcases keeps.settled finished member with written | ⟨newer, inside, key_eq, at_least, low⟩
      · exact written
      -- The version that shadows the newest one is the newest one.
      have newer_in := keeps.origin newer (.inl inside)
      have bound := newest newer ⟨newer_in, le_trans low above⟩ (key_eq.trans same)
      have equal := distinct newer newer_in entry member key_eq (le_antisymm bound at_least)
      exact equal ▸ inside
    · rintro other ⟨other_written, other_seen⟩ other_key
      exact newest other ⟨keeps.origin other (.inl other_written), other_seen⟩ other_key

end

end Keeps

end MergeState

/-- A compaction that returns OK keeps, for every reader at or above the oldest snapshot, the
version this reader sees. -/
theorem compactTo_newestAt (options : Options) (target oldestSnapshot nextFileId : Nat)
    (inputs : List SSTable)
    (sorted : ∀ table ∈ inputs, Sorted Entry.key Entry.seq table.entries)
    (distinct : (versionsOf inputs).Pairwise fun first second =>
      ¬ (first.key = second.key ∧ first.seq = second.seq)) :
    let result := compactTo options target oldestSnapshot nextFileId inputs
    result.status = .ok →
      Sorted Entry.key Entry.seq (versionsOf result.added) ∧
      versionsOf result.added ⊆ versionsOf inputs ∧
      ∀ key snapshot, oldestSnapshot ≤ snapshot → ∀ entry,
        NewestAt snapshot (versionsOf result.added) key entry ↔
          NewestAt snapshot (versionsOf inputs) key entry := by
  dsimp only
  intro succeeded
  have started : MergeState.Keeps inputs oldestSnapshot (start options nextFileId inputs) :=
    keeps_start sorted
  have keeps := started.loop options target (start options nextFileId inputs).remaining
  have finished := finished_loop options target oldestSnapshot
    (start options nextFileId inputs).remaining (le_refl _)
  unfold compactTo at succeeded ⊢
  split at succeeded
  · rename_i none_given
    rw [if_pos none_given, isEmpty_iff.mp none_given]
    exact ⟨List.Pairwise.nil, List.Subset.refl _, fun _ _ _ _ => Iff.rfl⟩
  rename_i given
  rw [if_neg given]
  dsimp only at succeeded ⊢
  generalize (start options nextFileId inputs).loop options target oldestSnapshot
    _ = state at keeps finished succeeded ⊢
  split at succeeded
  · exact absurd succeeded (by simp)
  rename_i some_written
  rw [if_neg some_written]
  rw [MergeInv.versionsOf_outputs]
  refine ⟨keeps.ordered, fun entry member => keeps.origin entry (.inl member), ?_⟩
  intro key snapshot above entry
  exact keeps.newestAt_iff finished (distinct_of_pairwise distinct) above

/-- Two tables with versions of one key, read at a snapshot between them. -/
def snapshotInputs : List SSTable :=
  [TableBuilder.build {} 1 [⟨[107], 2, .value, [1]⟩],
    TableBuilder.build {} 2 [⟨[107], 5, .deletion, []⟩, ⟨[107], 4, .value, [3]⟩]]

theorem compactTo_newestAt_snapshotInputs :
    NewestAt 4 (versionsOf (compactTo {} 1 4 3 snapshotInputs).added) [107]
      ⟨[107], 4, .value, [3]⟩ := by
  have kept := compactTo_newestAt {} 1 4 3 snapshotInputs (by decide +kernel) (by decide +kernel)
    rfl
  refine (kept.2.2 [107] 4 (le_refl _) _).mpr ⟨⟨by decide +kernel, by decide⟩, rfl, ?_⟩
  rintro other ⟨_, seen⟩ _
  exact seen

end LightKV
