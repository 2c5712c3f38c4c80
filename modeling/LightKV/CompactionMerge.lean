import LightKV.Compaction

/-!
# What the merge produces

The loop of `DoCompaction` is followed round by round. At any point the versions of an
input table fall into those still in its source and those that were taken off it. A
version that was taken off is either written, or it was dropped behind a version of its
key that is at least as new; in the second case no later round writes that key again.

The last fact is what makes the outputs trustworthy at one sequence number: when a version
is written, all versions of its key that stand in front of it in its own table have been
written too. Together with `TieClosed` it gives that the versions written cover the
inputs.
-/

namespace LightKV

open Versions List MergeState TableBuilder Entry SSTable

/-- Runs that hold a key at one sequence number have the same highest rank there: a run
never has the lower version of such a pair only. -/
def TieClosed (runs : Set (List Entry)) : Prop :=
  ∀ run ∈ runs, ∀ other ∈ runs, ∀ entry ∈ run, ∀ above ∈ other,
    above.key = entry.key → above.seq = entry.seq → entry.rank < above.rank →
      ∃ held ∈ run, held.key = entry.key ∧ held.rank = above.rank

theorem TieClosed.subset (closed : TieClosed runs) (subset : fewer ⊆ runs) : TieClosed fewer :=
  fun run member other inside => closed run (subset member) other (subset inside)

/-- The runs of a list of tables. -/
def runsOf (tables : List SSTable) : Set (List Entry) :=
  {run | ∃ table ∈ tables, run = table.entries}

/-- The versions of a list of tables. -/
def versionsOf (tables : List SSTable) : List Entry :=
  tables.flatMap SSTable.entries

theorem mem_versionsOf : entry ∈ versionsOf tables ↔ ∃ table ∈ tables, entry ∈ table.entries :=
  mem_flatMap

/-- The inputs a merge can be trusted with. -/
structure Mergeable (oldestSnapshot : Nat) (inputs : List SSTable) : Prop where
  sorted : ∀ table ∈ inputs, Sorted Entry.key Entry.rank table.entries
  nonempty : ∀ table ∈ inputs, ∀ entry ∈ table.entries, entry.key ≠ []
  visible : ∀ table ∈ inputs, ∀ entry ∈ table.entries, entry.seq ≤ oldestSnapshot
  closed : TieClosed (runsOf inputs)

namespace MergeState

/-- The versions in the outputs so far. -/
def written (state : MergeState) : List Entry :=
  versionsOf state.added ++ state.builder.entries

/-- The versions still in a source. -/
def Pending (state : MergeState) (entry : Entry) : Prop :=
  ∃ source ∈ state.sources, entry ∈ source.rest

/-- A written version of the key is at least as new. -/
def Covered (state : MergeState) (entry : Entry) : Prop :=
  ∃ newer ∈ state.written, newer.key = entry.key ∧ entry.rank ≤ newer.rank

/-- Written, or dropped and its key left behind. -/
def Passed (state : MergeState) (entry : Entry) : Prop :=
  entry ∈ state.written ∨
    state.Covered entry ∧ ∀ other, state.Pending other → entry.key < other.key

/-- Written, or dropped while its key is the last one written or already left behind. -/
def Settled (state : MergeState) (entry : Entry) : Prop :=
  entry ∈ state.written ∨
    state.Covered entry ∧
      (state.lastKey = entry.key ∨ ∀ other, state.Pending other → entry.key < other.key)

theorem Passed.settled {state : MergeState} (passed : state.Passed entry) :
    state.Settled entry := passed.imp_right fun dropped => ⟨dropped.1, .inr dropped.2⟩

/-- A source holds a table less the versions taken off its front. -/
def Traced (settled : Entry → Prop) (table : SSTable) (source : Source) : Prop :=
  ∃ taken, table.entries = taken ++ source.rest ∧ ∀ entry ∈ taken, settled entry

theorem Traced.mono (traced : Traced first table source)
    (weaker : ∀ entry ∈ table.entries, first entry → second entry) :
    Traced second table source := by
  obtain ⟨taken, split, all⟩ := traced
  exact ⟨taken, split, fun entry member =>
    weaker entry (split ▸ mem_append_left _ member) (all entry member)⟩

end MergeState

/-- What holds before each round; `settled` is what is known of the versions taken off. -/
structure MergeInv (inputs : List SSTable) (state : MergeState) (settled : Entry → Prop) :
    Prop where
  /-- Each input is still represented by a source, and each source by an input. -/
  traced : ∀ table ∈ inputs, ∃ source ∈ state.sources, Traced settled table source
  origin : ∀ source ∈ state.sources, ∃ table ∈ inputs, Traced settled table source
  /-- The outputs are in order and in front of what is pending. -/
  ordered : Sorted Entry.key Entry.seq state.written
  precedes : ∀ entry ∈ state.written, ∀ other, state.Pending other → SeqBefore entry other
  increasing : ∀ table ∈ state.added, table.entries.Pairwise fun first second =>
    first.key < second.key
  current : state.builder.entries.Pairwise fun first second => first.key < second.key
  /-- The last key and sequence number are those of the last version written here. -/
  last : ∀ front entry, state.builder.entries = front ++ [entry] →
    state.lastKey = entry.key ∧ state.lastSeqWritten = entry.seq
  fresh : state.builder.entries = [] → state.lastKey = []
  count : state.outputCount = state.builder.entries.length
  filled : ∀ table ∈ state.added, table.entries ≠ []
  filtered : state.builder.Filtered
  added_filtered : ∀ table ∈ state.added, ∀ entry ∈ table.entries,
    table.mayMatch entry.key = true
  /-- A written version comes from a table whose newer versions of the key are written. -/
  topped : ∀ entry ∈ state.written, ∃ table ∈ inputs, entry ∈ table.entries ∧
    ∀ other ∈ table.entries, other.key = entry.key → entry.rank < other.rank →
      other ∈ state.written

namespace MergeInv

variable {inputs : List SSTable} {state : MergeState} {settled : Entry → Prop} {best : Pick}
variable {entry other : Entry} {oldestSnapshot : Nat}

theorem mono (inv : MergeInv inputs state settled)
    (weaken : ∀ entry, settled entry → weaker entry) : MergeInv inputs state weaker :=
  { inv with
    traced := fun table member => by
      obtain ⟨source, inside, traced⟩ := inv.traced table member
      exact ⟨source, inside, traced.mono fun entry _ => weaken entry⟩
    origin := fun source member => by
      obtain ⟨table, inside, traced⟩ := inv.origin source member
      exact ⟨table, inside, traced.mono fun entry _ => weaken entry⟩ }

variable (options : Options)

/-- The loop starts with everything pending. -/
theorem start (nextFileId : Nat) (inputs : List SSTable) (settled : Entry → Prop) :
    MergeInv inputs (start options nextFileId inputs) settled where
  traced table member := by
    refine ⟨⟨table.fileId, table.entries⟩, mem_map.mpr ⟨table, member, rfl⟩, [], rfl, ?_⟩
    simp
  origin source member := by
    obtain ⟨table, inside, rfl⟩ := mem_map.mp member
    exact ⟨table, inside, [], rfl, by simp⟩
  ordered := List.Pairwise.nil
  precedes entry member := by simp [MergeState.written, MergeState.start, versionsOf] at member
  increasing table member := by simp [MergeState.start] at member
  current := List.Pairwise.nil
  last front entry split := by simp [MergeState.start] at split
  fresh _ := rfl
  count := rfl
  filled table member := by simp [MergeState.start] at member
  filtered := filtered_new options
  added_filtered table member := by simp [MergeState.start] at member
  topped entry member := by simp [MergeState.written, MergeState.start, versionsOf] at member

section

variable (inv : MergeInv inputs state settled)
include inv

theorem mem_of_pending (pending : state.Pending entry) :
    ∃ table ∈ inputs, entry ∈ table.entries := by
  obtain ⟨source, member, inside⟩ := pending
  obtain ⟨table, in_inputs, _, split, _⟩ := inv.origin source member
  exact ⟨table, in_inputs, by rw [split]; exact mem_append_right _ inside⟩

theorem mem_of_written (member : entry ∈ state.written) :
    ∃ table ∈ inputs, entry ∈ table.entries := by
  obtain ⟨table, in_inputs, inside, _⟩ := inv.topped entry member
  exact ⟨table, in_inputs, inside⟩

/-- Once a version of a key is written at some sequence number, every input version of the
key that is not newer by sequence number is covered. -/
theorem covered_of_written (closed : TieClosed (runsOf inputs)) (member : entry ∈ state.written)
    (in_inputs : table ∈ inputs) (inside : other ∈ table.entries) (same : entry.key = other.key)
    (newer : other.seq ≤ entry.seq) : state.Covered other := by
  rcases lt_or_eq_of_le newer with older | tied
  · exact ⟨entry, member, same, rank_le_of_seq_lt older⟩
  rcases lt_or_ge entry.rank other.rank with above | below
  · obtain ⟨home, home_in, held, topped⟩ := inv.topped entry member
    obtain ⟨twin, twin_in, twin_key, twin_rank⟩ :=
      closed home.entries ⟨home, home_in, rfl⟩ table.entries ⟨table, in_inputs, rfl⟩ entry held
        other inside same.symm tied above
    refine ⟨twin, topped twin twin_in twin_key (by omega), twin_key.trans same, ?_⟩
    exact le_of_eq twin_rank.symm
  · exact ⟨entry, member, same, below⟩

end

section Picked

variable (picked : pick state.sources = some best)
include picked

theorem picked_pending : state.Pending best.entry :=
  ⟨_, picked_mem picked, mem_cons_self⟩

/-- The picked version stands in front of everything pending. -/
theorem first_of_sorted (sorted : ∀ source ∈ state.sources, Sorted Entry.key Entry.seq source.rest)
    (pending : state.Pending other) : SeqBefore best.entry other := by
  obtain ⟨source, member, inside⟩ := pending
  have source_sorted := sorted source member
  cases rest_eq : source.rest with
  | nil => simp [rest_eq] at inside
  | cons head rest =>
    have first := pick_le_heads picked source member head rest rest_eq
    rw [rest_eq] at inside source_sorted
    rcases mem_cons.mp inside with rfl | behind
    · exact first
    · exact first.trans ((pairwise_cons.mp source_sorted).1 other behind)

theorem picked_first (inv : MergeInv inputs state settled)
    (sorted : ∀ table ∈ inputs, Sorted Entry.key Entry.rank table.entries)
    (pending : state.Pending other) : SeqBefore best.entry other := by
  refine first_of_sorted picked (fun source member => ?_) pending
  obtain ⟨table, in_inputs, _, split, _⟩ := inv.origin source member
  have whole := sorted table in_inputs
  rw [split] at whole
  exact (pairwise_append.mp whole).2.1.imp seqBefore_of_before

/-- A skip gives up versions of the key just written. -/
theorem pending_skip :
    state.Pending other ↔ other ∈ (best.entry :: best.rest).takeWhile
        (fun entry => decide (entry.key = state.lastKey)) ∨ (state.skip best).Pending other :=
  mem_exchanged picked takeWhile_append_dropWhile.symm

theorem pending_write :
    state.Pending other ↔ other = best.entry ∨ (state.write best).Pending other :=
  (mem_exchanged picked (rfl : _ = [best.entry] ++ best.rest)).trans (or_congr_left mem_singleton)

/-- The sources still represent the inputs when the picked one gives up some versions that
are settled. -/
theorem exchange (inv : MergeInv inputs state settled)
    (weaken : ∀ table ∈ inputs, ∀ entry ∈ table.entries, settled entry → later entry)
    (split : best.entry :: best.rest = taken ++ shorter) (all : ∀ entry ∈ taken, later entry) :
    (∀ table ∈ inputs, ∃ source ∈ best.front ++ ⟨best.fileId, shorter⟩ :: best.back,
        Traced later table source) ∧
      ∀ source ∈ best.front ++ ⟨best.fileId, shorter⟩ :: best.back, ∃ table ∈ inputs,
        Traced later table source := by
  have advance : ∀ table ∈ inputs,
      Traced settled table ⟨best.fileId, best.entry :: best.rest⟩ →
        Traced later table ⟨best.fileId, shorter⟩ := by
    rintro table in_inputs ⟨before, table_eq, known⟩
    refine ⟨before ++ taken, by rw [table_eq, split, append_assoc], ?_⟩
    intro entry member
    rcases mem_append.mp member with old | new
    · exact weaken table in_inputs entry (table_eq ▸ mem_append_left _ old) (known entry old)
    · exact all entry new
  constructor
  · intro table in_inputs
    obtain ⟨source, member, traced⟩ := inv.traced table in_inputs
    rw [pick_split picked] at member
    rcases mem_append.mp member with front | exchanged
    · exact ⟨source, mem_append_left _ front, traced.mono (weaken table in_inputs)⟩
    · rcases mem_cons.mp exchanged with rfl | back
      · exact ⟨_, mem_append_right _ mem_cons_self, advance table in_inputs traced⟩
      · exact ⟨source, mem_append_right _ (mem_cons_of_mem _ back),
          traced.mono (weaken table in_inputs)⟩
  · refine forall_exchanged picked ?_ ?_
    · intro source member
      obtain ⟨table, in_inputs, traced⟩ := inv.origin source member
      exact ⟨table, in_inputs, traced.mono (weaken table in_inputs)⟩
    · obtain ⟨table, in_inputs, traced⟩ := inv.origin _ (picked_mem picked)
      exact ⟨table, in_inputs, advance table in_inputs traced⟩

end Picked

/-- If a key was written last, the current output ends with a version of it. -/
theorem exists_last (inv : MergeInv inputs state settled) (nonempty : state.lastKey ≠ []) :
    ∃ front entry, state.builder.entries = front ++ [entry] ∧ state.lastKey = entry.key ∧
      state.lastSeqWritten = entry.seq ∧ entry ∈ state.written := by
  have some_written : state.builder.entries ≠ [] := fun empty => nonempty (inv.fresh empty)
  have split := (dropLast_concat_getLast some_written).symm
  obtain ⟨key_eq, seq_eq⟩ := inv.last _ _ split
  exact ⟨_, _, split, key_eq, seq_eq, mem_append_right _ (getLast_mem some_written)⟩

/-- Dropping the versions of the key just written. -/
theorem skip (mergeable : Mergeable oldestSnapshot inputs)
    (inv : MergeInv inputs state state.Settled) (picked : pick state.sources = some best)
    (nonempty : state.lastKey ≠ []) :
    MergeInv inputs (state.skip best) (state.skip best).Settled := by
  have split : best.entry :: best.rest = _ ++ _ :=
    (takeWhile_append_dropWhile (p := fun entry : Entry => decide (entry.key = state.lastKey))).symm
  have weaken : ∀ entry, state.Settled entry → (state.skip best).Settled entry := by
    rintro _ (old | ⟨covered, current | behind⟩)
    · exact .inl old
    · exact .inr ⟨covered, .inl current⟩
    · exact .inr ⟨covered, .inr fun other pending =>
        behind other ((pending_skip picked).mpr (.inr pending))⟩
  obtain ⟨_, final, _, final_key, _, final_written⟩ := inv.exists_last nonempty
  have dropped : ∀ entry ∈ (best.entry :: best.rest).takeWhile
      (fun entry => decide (entry.key = state.lastKey)), (state.skip best).Settled entry := by
    intro entry member
    have same : entry.key = state.lastKey := by
      simpa using mem_takeWhile_imp member
    have pending := (pending_skip picked).mpr (.inl member)
    obtain ⟨_, in_inputs, inside⟩ := inv.mem_of_pending pending
    have key_eq : final.key = entry.key := final_key.symm.trans same.symm
    have newer := (inv.precedes final final_written entry pending).rank_le key_eq
    exact .inr ⟨inv.covered_of_written mergeable.closed final_written in_inputs inside key_eq
      newer, .inl same.symm⟩
  obtain ⟨traced, origin⟩ := inv.exchange picked (fun _ _ entry _ => weaken entry) split dropped
  exact { inv with
    traced := traced
    origin := origin
    precedes := fun entry member other pending =>
      inv.precedes entry member other ((pending_skip picked).mpr (.inr pending)) }

theorem written_write (state : MergeState) (best : Pick) :
    (state.write best).written = state.written ++ [best.entry] := by
  simp [written, write]

theorem versionsOf_outputs (state : MergeState) :
    versionsOf (state.added ++ [state.builder.finish state.fileId]) = state.written := by
  simp [versionsOf, written]

theorem written_startNewOutput (state : MergeState) (options : Options) :
    (state.startNewOutput options).written = state.written := by
  simp [written, startNewOutput, versionsOf]

/-- Writing a version of a key that was not the last one written leaves the keys of all
dropped versions behind. -/
theorem passed_of_settled (inv : MergeInv inputs state settled)
    (picked : pick state.sources = some best)
    (sorted : ∀ table ∈ inputs, Sorted Entry.key Entry.rank table.entries)
    (other_key : state.lastKey ≠ [] → best.entry.key ≠ state.lastKey) (nonempty : entry.key ≠ [])
    (known : state.Settled entry) : (state.write best).Passed entry := by
  rcases known with old | ⟨⟨newer, member, same, at_least⟩, placed⟩
  · exact .inl (by rw [written_write]; exact mem_append_left _ old)
  refine .inr ⟨⟨newer, by rw [written_write]; exact mem_append_left _ member, same, at_least⟩, ?_⟩
  intro other pending
  rcases placed with current | behind
  · have current_nonempty : state.lastKey ≠ [] := current ▸ nonempty
    obtain ⟨_, final, _, final_key, _, final_written⟩ := inv.exists_last current_nonempty
    have reached := (inv.precedes final final_written best.entry (picked_pending picked)).key_le
    have apart : entry.key ≠ best.entry.key := fun equal =>
      other_key current_nonempty (equal.symm.trans current.symm)
    have below : entry.key < best.entry.key :=
      lt_of_le_of_ne (by rw [← current, final_key]; exact reached) apart
    exact lt_of_lt_of_le below
      (inv.picked_first picked sorted ((pending_write picked).mpr (.inr pending))).key_le
  · exact behind other ((pending_write picked).mpr (.inr pending))

/-- The newer versions of the picked version's key in its own table were all written. -/
theorem newer_written (picked : pick state.sources = some best)
    (other_key : state.lastKey ≠ [] → best.entry.key ≠ state.lastKey)
    (sorted : Sorted Entry.key Entry.rank table.entries)
    (nonempty : ∀ entry ∈ table.entries, entry.key ≠ [])
    (traced : Traced state.Settled table ⟨best.fileId, best.entry :: best.rest⟩)
    (inside : other ∈ table.entries) (same : other.key = best.entry.key)
    (newer : best.entry.rank < other.rank) : other ∈ state.written := by
  obtain ⟨taken, split, known⟩ := traced
  have other_nonempty := nonempty other inside
  rw [split] at inside sorted
  have in_taken : other ∈ taken := by
    rcases mem_append.mp inside with front | back
    · exact front
    -- Behind the picked version nothing of its key is newer.
    rcases mem_cons.mp back with rfl | behind
    · exact absurd newer (lt_irrefl _)
    · have rest_sorted := (pairwise_append.mp sorted).2.1
      have older := ((pairwise_cons.mp rest_sorted).1 other behind).rank_le same.symm
      exact absurd newer (not_lt_of_ge older)
  rcases known other in_taken with written | ⟨_, current | behind⟩
  · exact written
  · exact absurd (same.symm.trans current.symm) (other_key (current ▸ other_nonempty))
  · exact absurd (behind best.entry (picked_pending picked)) (by rw [same]; exact lt_irrefl _)

/-- Writing the picked version. -/
theorem write (mergeable : Mergeable oldestSnapshot inputs)
    (inv : MergeInv inputs state state.Settled) (picked : pick state.sources = some best)
    (other_key : state.lastKey ≠ [] → best.entry.key ≠ state.lastKey) :
    MergeInv inputs (state.write best) (state.write best).Passed := by
  have pending := picked_pending picked
  have itself : best.entry ∈ (state.write best).written := by
    rw [written_write]
    exact mem_append_right _ mem_cons_self
  have taken_off : best.entry :: best.rest = [best.entry] ++ best.rest := rfl
  obtain ⟨traced, origin⟩ := inv.exchange picked (fun table in_inputs entry inside =>
      inv.passed_of_settled picked mergeable.sorted other_key
        (mergeable.nonempty table in_inputs entry inside)) taken_off
    (fun entry member => .inl (mem_singleton.mp member ▸ itself))
  refine
    { traced := traced
      origin := origin
      ordered := ?_
      precedes := ?_
      increasing := inv.increasing
      current := ?_
      last := ?_
      fresh := ?_
      count := ?_
      filled := inv.filled
      filtered := inv.filtered.add
      added_filtered := inv.added_filtered
      topped := ?_ }
  · rw [written_write]
    refine pairwise_append.mpr ⟨inv.ordered, pairwise_singleton _ _, ?_⟩
    intro entry member _ single
    rw [mem_singleton.mp single]
    exact inv.precedes entry member best.entry pending
  · intro entry member other other_pending
    rw [written_write, mem_append, mem_singleton] at member
    have before := (pending_write picked).mpr (.inr other_pending)
    rcases member with old | rfl
    · exact inv.precedes entry old other before
    · exact inv.picked_first picked mergeable.sorted before
  · change ((state.builder.add best.entry).entries).Pairwise _
    rw [entries_add]
    refine pairwise_append.mpr ⟨inv.current, pairwise_singleton _ _, ?_⟩
    intro entry member _ single
    rw [mem_singleton.mp single]
    by_cases blank : state.lastKey = []
    · -- Without a last key the current output is empty, since keys are not.
      have some_written : state.builder.entries ≠ [] := ne_nil_of_mem member
      have final_in := getLast_mem some_written
      have split := (dropLast_concat_getLast some_written).symm
      obtain ⟨table, in_inputs, inside⟩ :=
        inv.mem_of_written (mem_append_right (versionsOf state.added) final_in)
      exact absurd ((inv.last _ _ split).1.symm.trans blank)
        (mergeable.nonempty table in_inputs _ inside)
    · obtain ⟨_, final, split, final_key, _, final_written⟩ := inv.exists_last blank
      have reached := (inv.precedes final final_written best.entry pending).key_le
      have below : final.key < best.entry.key :=
        lt_of_le_of_ne reached fun equal => other_key blank (equal.symm.trans final_key.symm)
      have increasing := inv.current
      rw [split] at member increasing
      rcases mem_append.mp member with earlier | single
      · exact lt_trans ((pairwise_append.mp increasing).2.2 entry earlier final mem_cons_self) below
      · exact mem_singleton.mp single ▸ below
  · intro front entry split
    cases (append_inj' (state.builder.entries_add.symm.trans split) rfl).2
    exact ⟨rfl, rfl⟩
  · intro empty
    have entries_eq := state.builder.entries_add.symm.trans empty
    simp at entries_eq
  · change state.outputCount + 1 = ((state.builder.add best.entry).entries).length
    rw [inv.count]
    simp
  · intro entry member
    rw [written_write, mem_append, mem_singleton] at member
    rw [written_write]
    rcases member with old | rfl
    · obtain ⟨table, in_inputs, inside, topped⟩ := inv.topped entry old
      exact ⟨table, in_inputs, inside, fun other held same newer =>
        mem_append_left _ (topped other held same newer)⟩
    obtain ⟨table, in_inputs, traced⟩ := inv.origin _ (picked_mem picked)
    refine ⟨table, in_inputs, ?_, ?_⟩
    · obtain ⟨_, split, _⟩ := traced
      rw [split]
      exact mem_append_right _ mem_cons_self
    · intro _ held same newer
      exact mem_append_left _ (newer_written picked other_key
        (mergeable.sorted table in_inputs) (mergeable.nonempty table in_inputs) traced held same
        newer)

/-- The outputs together with the current one, if it holds anything. -/
theorem outputs (inv : MergeInv inputs state settled) (some_written : state.builder.entries ≠ []) :
    ∀ table ∈ state.added ++ [state.builder.finish state.fileId], table.entries ≠ [] ∧
      (table.entries.Pairwise fun first second => first.key < second.key) ∧
      ∀ entry ∈ table.entries, table.mayMatch entry.key = true := by
  intro table member
  rcases mem_append.mp member with old | new
  · exact ⟨inv.filled table old, inv.increasing table old, inv.added_filtered table old⟩
  · rw [mem_singleton.mp new, entries_finish]
    refine ⟨some_written, inv.current, fun entry inside => ?_⟩
    rw [mayMatch, bloom_finish]
    exact inv.filtered entry inside

/-- Closing the current output moves its versions, and leaves no last key. -/
theorem startNewOutput (inv : MergeInv inputs state state.Passed)
    (some_written : state.builder.entries ≠ []) :
    MergeInv inputs (state.startNewOutput options) (state.startNewOutput options).Passed := by
  have written_eq := written_startNewOutput state options
  have weaken : ∀ entry, state.Passed entry → (state.startNewOutput options).Passed entry := by
    intro _ passed
    unfold MergeState.Passed MergeState.Covered
    rw [written_eq]
    exact passed
  have moved := inv.mono weaken
  have outputs := inv.outputs some_written
  exact
    { traced := moved.traced
      origin := moved.origin
      ordered := written_eq ▸ inv.ordered
      precedes := fun entry member other pending =>
        inv.precedes entry (written_eq ▸ member) other pending
      increasing := fun table member => (outputs table member).2.1
      current := List.Pairwise.nil
      last := fun _ _ split => by simp [MergeState.startNewOutput] at split
      fresh := fun _ => rfl
      count := rfl
      filled := fun table member => (outputs table member).1
      filtered := filtered_new options
      added_filtered := fun table member => (outputs table member).2.2
      topped := fun entry member => by
        rw [written_eq] at member ⊢
        exact inv.topped entry member }

/-- One round keeps the invariant. -/
theorem round (mergeable : Mergeable oldestSnapshot inputs)
    (inv : MergeInv inputs state state.Settled) (picked : pick state.sources = some best) :
    MergeInv inputs (state.round options target oldestSnapshot best)
      (state.round options target oldestSnapshot best).Settled := by
  unfold MergeState.round
  split
  · rename_i duplicate
    exact inv.skip mergeable picked duplicate.1
  rename_i not_duplicate
  have other_key : state.lastKey ≠ [] → best.entry.key ≠ state.lastKey := by
    intro nonempty same
    obtain ⟨_, final, _, _, final_seq, final_written⟩ := inv.exists_last nonempty
    obtain ⟨table, in_inputs, inside⟩ := inv.mem_of_written final_written
    exact not_duplicate ⟨nonempty, same,
      by rw [final_seq]; exact mergeable.visible table in_inputs final inside⟩
  have after := inv.write mergeable picked other_key
  split
  · refine (after.startNewOutput options ?_).mono fun _ passed => passed.settled
    intro empty
    have entries_eq := state.builder.entries_add.symm.trans empty
    simp at entries_eq
  · exact after.mono fun _ passed => passed.settled

/-- The whole loop keeps the invariant. -/
theorem loop (target : Nat) (mergeable : Mergeable oldestSnapshot inputs) (fuel : Nat)
    (inv : MergeInv inputs state state.Settled) :
    MergeInv inputs (state.loop options target oldestSnapshot fuel)
      (state.loop options target oldestSnapshot fuel).Settled :=
  @MergeState.loop_keeps _ _ _ (fun state => MergeInv inputs state state.Settled)
    (fun picked inv => inv.round options mergeable picked) _ inv fuel

end MergeInv

/-! ## The end of the loop -/

namespace MergeState

variable {state : MergeState} {best : Pick} (options : Options) (target oldestSnapshot : Nat)

/-- Each round takes at least one version off a source. -/
theorem remaining_round (picked : pick state.sources = some best) :
    (state.round options target oldestSnapshot best).remaining < state.remaining := by
  have before : state.remaining = (best.front.map fun source => source.rest.length).sum +
      (best.rest.length + 1 + (best.back.map fun source => source.rest.length).sum) := by
    unfold remaining pendingCount
    rw [pick_split picked]
    simp
  rw [before]
  unfold round
  split
  · rename_i duplicate
    have shorter : ((best.entry :: best.rest).dropWhile fun entry =>
        decide (entry.key = state.lastKey)).length ≤ best.rest.length := by
      rw [dropWhile_cons_of_pos (by simpa using duplicate.2.1)]
      exact (dropWhile_sublist _).length_le
    simp only [remaining, pendingCount, skip, map_append, map_cons, sum_append, sum_cons]
    omega
  · split <;>
      simp only [remaining, pendingCount, startNewOutput, write, map_append, map_cons, sum_append,
        sum_cons] <;> omega

/-- With enough fuel the loop ends with nothing pending. -/
theorem finished_loop (fuel : Nat) (enough : state.remaining ≤ fuel) :
    pick (state.loop options target oldestSnapshot fuel).sources = none := by
  induction fuel generalizing state with
  | zero =>
    cases picked : pick state.sources with
    | none => exact picked
    | some _ =>
      have fewer := remaining_round options target oldestSnapshot picked
      omega
  | succ _ ih =>
    unfold loop
    cases picked : pick state.sources with
    | none => exact picked
    | some _ =>
      refine ih ?_
      have fewer := remaining_round options target oldestSnapshot picked
      omega

end MergeState

/-- What a merge of the inputs promises of its outputs. -/
structure Merged (inputs outputs : List SSTable) : Prop where
  filled : ∀ table ∈ outputs, table.entries ≠ []
  increasing : ∀ table ∈ outputs, table.entries.Pairwise fun first second => first.key < second.key
  filtered : ∀ table ∈ outputs, ∀ entry ∈ table.entries, table.mayMatch entry.key = true
  ordered : Sorted Entry.key Entry.seq (versionsOf outputs)
  topped : ∀ entry ∈ versionsOf outputs, ∃ table ∈ inputs, entry ∈ table.entries ∧
    ∀ other ∈ table.entries, other.key = entry.key → entry.rank < other.rank →
      other ∈ versionsOf outputs
  covered : ∀ entry ∈ versionsOf inputs, ∃ newer ∈ versionsOf outputs,
    newer.key = entry.key ∧ entry.rank ≤ newer.rank

/-- The state at the end of the loop has merged the inputs. -/
theorem MergeInv.merged {inputs : List SSTable} {state : MergeState}
    (inv : MergeInv inputs state state.Settled) (finished : pick state.sources = none)
    (some_written : state.outputCount ≠ 0) :
    Merged inputs (state.added ++ [state.builder.finish state.fileId]) := by
  have outputs := inv.outputs fun empty => some_written (by rw [inv.count, empty]; rfl)
  refine ⟨fun table member => (outputs table member).1, fun table member =>
    (outputs table member).2.1, fun table member => (outputs table member).2.2, ?_, ?_, ?_⟩
  · rw [versionsOf_outputs]
    exact inv.ordered
  · rw [versionsOf_outputs]
    exact inv.topped
  · rw [versionsOf_outputs]
    intro entry member
    obtain ⟨table, in_inputs, inside⟩ := mem_versionsOf.mp member
    obtain ⟨source, in_sources, _, split, known⟩ := inv.traced table in_inputs
    rw [rest_eq_nil_of_pick finished source in_sources, append_nil] at split
    rcases known entry (split ▸ inside) with written | dropped
    · exact ⟨entry, written, rfl, le_refl _⟩
    · exact dropped.1

namespace Merged

variable {inputs outputs : List SSTable}

theorem mem_inputs (merged : Merged inputs outputs) (member : entry ∈ versionsOf outputs) :
    entry ∈ versionsOf inputs := by
  obtain ⟨table, in_inputs, inside, _⟩ := merged.topped entry member
  exact mem_versionsOf.mpr ⟨table, in_inputs, inside⟩

theorem wellFormed (merged : Merged inputs outputs) (member : table ∈ outputs) : table.WellFormed :=
  ⟨(merged.increasing table member).imp fun below => .inl below, merged.filtered table member⟩

end Merged

/-- No key and sequence number is in the tables with both types. The cut between two
outputs could separate such a value from the deletion of the same batch. -/
def Untied (tables : List SSTable) : Prop :=
  ∀ first ∈ versionsOf tables, ∀ second ∈ versionsOf tables,
    first.key = second.key → first.seq = second.seq → first.type = second.type
  deriving Decidable

namespace Merged

variable {inputs outputs : List SSTable}

/-- Outputs are untied if the inputs are. -/
theorem untied (merged : Merged inputs outputs) (untied_inputs : Untied inputs) : Untied outputs :=
  fun first in_first second in_second =>
    untied_inputs first (merged.mem_inputs in_first) second (merged.mem_inputs in_second)

/-- The outputs are in order as files of a level. -/
theorem level (merged : Merged inputs outputs) (untied : Untied outputs) :
    Levels.Level Entry.key Entry.rank SSTable.entries outputs := by
  refine ⟨merged.filled, fun _ member => (merged.wellFormed member).sorted, ?_⟩
  have apart := (pairwise_flatMap.mp merged.ordered).2
  refine (List.Pairwise.and_mem.mp apart).imp ?_
  rintro earlier later ⟨in_earlier, in_later, before⟩ first in_first second in_second
  have first_in := mem_versionsOf.mpr ⟨earlier, in_earlier, in_first⟩
  have second_in := mem_versionsOf.mpr ⟨later, in_later, in_second⟩
  rcases before first in_first second in_second with below | ⟨same, newer⟩
  · exact .inl below
  refine .inr ⟨same, ?_⟩
  rcases lt_or_eq_of_le newer with older | tied
  · exact rank_le_of_seq_lt older
  · exact le_of_eq (rank_eq_iff.mpr
      ⟨tied, (untied first first_in second second_in same tied.symm).symm⟩)

/-- Exchanging the inputs for the outputs keeps the runs closed. -/
theorem tieClosed (merged : Merged inputs outputs) (untied : Untied outputs)
    (closed : TieClosed runs) (kept : others ⊆ runs) (inputs_in : runsOf inputs ⊆ runs) :
    TieClosed (others ∪ runsOf outputs) := by
  -- Whatever a run of the new set holds is held by a run of the old one.
  have source_run : ∀ run ∈ others ∪ runsOf outputs, ∀ entry ∈ run, ∃ old ∈ runs, entry ∈ old := by
    rintro run (old | ⟨table, in_outputs, rfl⟩) entry member
    · exact ⟨run, kept old, member⟩
    · obtain ⟨input, in_inputs, inside, _⟩ :=
        merged.topped entry (mem_versionsOf.mpr ⟨table, in_outputs, member⟩)
      exact ⟨input.entries, inputs_in ⟨input, in_inputs, rfl⟩, inside⟩
  rintro run in_runs other in_others entry member above inside same tied higher
  obtain ⟨old, in_old, above_in⟩ := source_run other in_others above inside
  rcases in_runs with unchanged | ⟨table, in_outputs, rfl⟩
  · exact closed run (kept unchanged) old in_old entry member above above_in same tied higher
  have entry_in := mem_versionsOf.mpr ⟨table, in_outputs, member⟩
  obtain ⟨input, in_inputs, entry_held, topped⟩ := merged.topped entry entry_in
  obtain ⟨held, held_in, held_key, held_rank⟩ :=
    closed input.entries (inputs_in ⟨input, in_inputs, rfl⟩) old in_old entry entry_held above
      above_in same tied higher
  have held_out := topped held held_in held_key (by omega)
  have held_seq := (rank_eq_iff.mp held_rank).1.trans tied
  have type_eq := untied held held_out entry entry_in held_key held_seq
  have rank_eq : held.rank = entry.rank := rank_eq_iff.mpr ⟨held_seq, type_eq⟩
  omega

end Merged

/-! ## The result of a compaction -/

/-- The outputs are numbered one after another. -/
structure MergeState.Numbered (first : Nat) (state : MergeState) : Prop where
  added : state.added.map SSTable.fileId = range' first state.added.length
  current : state.fileId = first + state.added.length
  next : state.nextFileId = state.fileId + 1

namespace MergeState.Numbered

variable {first : Nat} {state : MergeState}

theorem round (numbered : state.Numbered first) :
    (state.round options target oldestSnapshot best).Numbered first := by
  unfold MergeState.round
  split
  · exact ⟨numbered.added, numbered.current, numbered.next⟩
  split
  · refine ⟨?_, ?_, rfl⟩
    · simp only [startNewOutput, write, map_append, length_append, numbered.added, numbered.current]
      exact (range'_1_concat ..).symm
    · have next := numbered.next
      have current := numbered.current
      simp only [startNewOutput, write, length_append, length_singleton]
      omega
  · exact ⟨numbered.added, numbered.current, numbered.next⟩

theorem loop (numbered : state.Numbered first) (options : Options) (target oldestSnapshot : Nat)
    (fuel : Nat) : (state.loop options target oldestSnapshot fuel).Numbered first :=
  loop_keeps (fun _ numbered => numbered.round) numbered fuel

end MergeState.Numbered

section Result

variable {options : Options} {oldestSnapshot nextFileId outputLevel : Nat} {inputs : List SSTable}

/-- The files of a compaction take the next file numbers. -/
theorem compactTo_numbered (target : Nat) :
    let result := compactTo options target oldestSnapshot nextFileId inputs
    result.written.map SSTable.fileId = range' nextFileId result.written.length ∧
      result.nextFileId = nextFileId + result.written.length := by
  have started : (start options nextFileId inputs).Numbered nextFileId := ⟨rfl, rfl, rfl⟩
  have numbered := started.loop options target oldestSnapshot
    (start options nextFileId inputs).remaining
  unfold compactTo
  split
  · exact ⟨rfl, rfl⟩
  dsimp only
  generalize (start options nextFileId inputs).loop options target oldestSnapshot _ =
    state at numbered ⊢
  have ids : (state.added ++ [state.builder.finish state.fileId]).map SSTable.fileId =
      range' nextFileId (state.added.length + 1) := by
    simp only [map_append, numbered.added, numbered.current]
    exact (range'_1_concat ..).symm
  have next : state.nextFileId = nextFileId + (state.added.length + 1) := by
    rw [numbered.next, numbered.current, add_assoc]
  split <;> exact ⟨by simpa using ids, by simpa using next⟩

/-- A compaction registers all the files it wrote, or none when it fails. -/
theorem compactTo_added (target : Nat) :
    let result := compactTo options target oldestSnapshot nextFileId inputs
    result.added = if result.status.isOk then result.written else [] := by
  unfold compactTo
  split
  · rfl
  · dsimp only
    split <;> simp [Status.isOk]

/-- The files of a compaction have new numbers, all different. -/
theorem doCompaction_fresh :
    let result := doCompaction options oldestSnapshot nextFileId inputs outputLevel
    (result.written.map SSTable.fileId).Nodup ∧
      (∀ table ∈ result.written, nextFileId ≤ table.fileId ∧ table.fileId < result.nextFileId) ∧
      nextFileId ≤ result.nextFileId ∧ result.added.Sublist result.written := by
  unfold doCompaction
  obtain ⟨ids, next⟩ := @compactTo_numbered options oldestSnapshot nextFileId inputs
    (targetFileSize options outputLevel)
  refine ⟨?_, ?_, le_of_le_of_eq (Nat.le_add_right _ _) next.symm, ?_⟩
  · rw [ids]
    exact nodup_range'
  · intro _ member
    have listed := mem_map_of_mem (f := SSTable.fileId) member
    rw [ids, mem_range'_1] at listed
    rwa [next]
  · rw [compactTo_added]
    split
    · exact List.Sublist.refl _
    · exact nil_sublist _

/-- A compaction that succeeds has merged its inputs. -/
theorem doCompaction_merged (mergeable : Mergeable oldestSnapshot inputs) (some_input : inputs ≠ [])
    (succeeded : (doCompaction options oldestSnapshot nextFileId inputs outputLevel).status.isOk =
      true) :
    Merged inputs (doCompaction options oldestSnapshot nextFileId inputs outputLevel).added := by
  have inv := (MergeInv.start options nextFileId inputs
    (start options nextFileId inputs).Settled).loop options
      (targetFileSize options outputLevel) mergeable (start options nextFileId inputs).remaining
  have finished := finished_loop options (targetFileSize options outputLevel)
    oldestSnapshot (start options nextFileId inputs).remaining (le_refl _)
  unfold doCompaction compactTo at succeeded ⊢
  rw [if_neg (by simpa using some_input)] at succeeded ⊢
  dsimp only at succeeded ⊢
  split at succeeded
  · simp [Status.isOk] at succeeded
  · rename_i some_written
    rw [if_neg some_written]
    exact inv.merged finished some_written

end Result

end LightKV
