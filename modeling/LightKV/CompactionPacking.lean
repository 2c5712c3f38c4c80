import Mathlib.Data.List.DropRight
import LightKV.CompactionCuts

/-!
# How a merge packs versions into outputs

The loop of `DoCompaction` does two things at once: the heap puts the versions of all
inputs into one order, and the versions in that order are packed into outputs. Here the
two are taken apart. `mergeOrder` is the order in which the heap gives up all versions of
the inputs, and a `Packing` goes through it: a version of the key packed last is left out,
any other version goes into the open output, and an output that has reached the target is
closed. The loop skips several versions of a key at once, but it packs the same way.

So where the outputs are cut can be read off the inputs. `EndsOpen` says that the version
packed last does not close its output, and `Uncut` that no output is closed between two
versions of one key.
-/

namespace LightKV

open Versions List TableBuilder Source

/-! ## The order of the heap -/

/-- The sources when the picked version is taken off. -/
def Pick.advanced (best : Pick) : List Source :=
  best.front ++ ⟨best.fileId, best.rest⟩ :: best.back

/-- The versions in the order in which the heap gives them up. -/
def drainLoop : Nat → List Source → List Entry
  | 0, _ => []
  | fuel + 1, sources =>
      match pick sources with
      | none => []
      | some best => best.entry :: drainLoop fuel best.advanced

/-- All versions of the sources in the order of the heap. -/
def drain (sources : List Source) : List Entry :=
  drainLoop (pendingCount sources) sources

/-- All versions of the inputs in the order of the heap. -/
def mergeOrder (inputs : List SSTable) : List Entry :=
  drain (inputs.map fun table => ⟨table.fileId, table.entries⟩)

section Drain

variable {sources : List Source} {best : Pick}

theorem pendingCount_advanced (picked : pick sources = some best) :
    pendingCount sources = pendingCount best.advanced + 1 := by
  rw [pick_split picked]
  simp only [pendingCount, Pick.advanced, map_append, map_cons, sum_append, sum_cons, length_cons]
  omega

theorem drain_of_none (finished : pick sources = none) : drain sources = [] := by
  unfold drain
  cases pendingCount sources with
  | zero => rfl
  | succ _ => rw [drainLoop, finished]

/-- The merge takes the picked version first. -/
theorem drain_of_pick (picked : pick sources = some best) :
    drain sources = best.entry :: drain best.advanced := by
  unfold drain
  rw [pendingCount_advanced picked, drainLoop, picked]

/-- Recursion along the heap. -/
theorem drain_induction {motive : List Source → Prop}
    (finished : ∀ sources, pick sources = none → motive sources)
    (advanced : ∀ sources best, pick sources = some best → motive best.advanced →
      motive sources) (sources : List Source) : motive sources := by
  induction count : pendingCount sources generalizing sources with
  | zero =>
    cases picked : pick sources with
    | none => exact finished sources picked
    | some _ =>
      have positive := pendingCount_advanced picked
      omega
  | succ _ ih =>
    cases picked : pick sources with
    | none => exact finished sources picked
    | some best =>
      have fewer := pendingCount_advanced picked
      exact advanced sources best picked (ih best.advanced (by omega))

/-- The sources hold their versions in the order of the keys. -/
def SourcesSorted (sources : List Source) : Prop :=
  ∀ source ∈ sources, KeySorted Entry.key source.rest

theorem SourcesSorted.advanced (sorted : SourcesSorted sources)
    (picked : pick sources = some best) : SourcesSorted best.advanced :=
  forall_exchanged picked sorted (sorted _ (picked_mem picked)).of_cons

variable {entry : Entry}

theorem mem_advanced (picked : pick sources = some best) :
    (∃ source ∈ sources, entry ∈ source.rest) ↔
      entry = best.entry ∨ ∃ source ∈ best.advanced, entry ∈ source.rest := by
  rw [mem_exchanged picked (rfl : _ = [best.entry] ++ best.rest), mem_singleton]
  rfl

/-- The merge visits exactly the pending versions. -/
theorem mem_drain : entry ∈ drain sources ↔ ∃ source ∈ sources, entry ∈ source.rest := by
  induction sources using drain_induction with
  | finished _ finished =>
    rw [drain_of_none finished]
    constructor
    · exact fun impossible => absurd impossible not_mem_nil
    · rintro ⟨source, member, inside⟩
      rw [rest_eq_nil_of_pick finished source member] at inside
      cases inside
  | advanced _ _ picked ih => rw [drain_of_pick picked, mem_cons, ih, mem_advanced picked]

/-- No version pending has a smaller key. -/
theorem SourcesSorted.pick_le (sorted : SourcesSorted sources) (picked : pick sources = some best)
    (member : source ∈ sources) (inside : entry ∈ source.rest) : best.entry.key ≤ entry.key := by
  cases head_eq : source.rest with
  | nil =>
    rw [head_eq] at inside
    cases inside
  | cons head rest =>
    have below := (pick_le_heads picked source member head rest head_eq).key_le
    have order := sorted source member
    rw [head_eq] at inside order
    rcases mem_cons.mp inside with rfl | behind
    · exact below
    · exact le_trans below ((pairwise_cons.mp order).1 entry behind)

/-- Sorted sources are merged in the order of their keys. -/
theorem SourcesSorted.drain (sorted : SourcesSorted sources) :
    KeySorted Entry.key (drain sources) := by
  induction sources using drain_induction with
  | finished _ finished =>
    rw [drain_of_none finished]
    exact List.Pairwise.nil
  | advanced _ _ picked ih =>
    rw [drain_of_pick picked]
    refine pairwise_cons.mpr ⟨?_, ih (sorted.advanced picked)⟩
    intro _ member
    obtain ⟨_, inside, held⟩ := (mem_advanced picked).mpr (.inr (mem_drain.mp member))
    exact sorted.pick_le picked inside held

end Drain

variable {inputs : List SSTable}

/-- Sorted inputs merge to a sorted sequence. -/
theorem keySorted_mergeOrder (sorted : ∀ table ∈ inputs, KeySorted Entry.key table.entries) :
    KeySorted Entry.key (mergeOrder inputs) := by
  apply SourcesSorted.drain
  intro _ member
  obtain ⟨table, inside, rfl⟩ := mem_map.mp member
  exact sorted table inside

/-! ## Packing -/

/-- The closed outputs by their versions, the open output, and the version packed last. -/
structure Packing where
  closed : List (List Entry)
  builder : TableBuilder
  lastKey : Bytes
  lastSeq : Nat
  deriving DecidableEq, Repr

namespace Packing

variable (options : Options) (target oldestSnapshot : Nat)

/-- Nothing is packed. -/
def start : Packing :=
  ⟨[], .new options, [], 0⟩

variable {options}

/-- The version is an older one of the key packed last, and no snapshot needs it. -/
def Skips (packing : Packing) (entry : Entry) : Prop :=
  packing.lastKey ≠ [] ∧ entry.key = packing.lastKey ∧ packing.lastSeq ≤ oldestSnapshot
  deriving Decidable

/-- The version brings the open output to the target. -/
def Closes (packing : Packing) (entry : Entry) : Prop :=
  ¬ packing.Skips oldestSnapshot entry ∧ target ≤ (packing.builder.add entry).fileSize
  deriving Decidable

variable (options)

/-- Pack the next version. -/
def take (packing : Packing) (entry : Entry) : Packing :=
  if packing.Skips oldestSnapshot entry then packing
  else if target ≤ (packing.builder.add entry).fileSize then
    ⟨packing.closed ++ [(packing.builder.add entry).entries], .new options, [], entry.seq⟩
  else ⟨packing.closed, packing.builder.add entry, entry.key, entry.seq⟩

/-- Pack versions one after another. -/
def takeAll (packing : Packing) (order : List Entry) : Packing :=
  order.foldl (take options target oldestSnapshot) packing

/-- No output is closed between two versions of one key. -/
def Uncut : Packing → List Entry → Prop
  | _, [] => True
  | packing, entry :: order =>
      (packing.Closes target oldestSnapshot entry →
        ∀ next ∈ order.head?, next.key ≠ entry.key) ∧
        Uncut (packing.take options target oldestSnapshot entry) order

instance decidableUncut :
    ∀ packing order, Decidable (Uncut options target oldestSnapshot packing order)
  | _, [] => .isTrue trivial
  | packing, entry :: order =>
      have := decidableUncut (packing.take options target oldestSnapshot entry) order
      inferInstanceAs (Decidable ((_ → ∀ next ∈ order.head?, _) ∧ _))

end Packing

section

variable (options : Options) (target oldestSnapshot : Nat) (inputs : List SSTable)

/-- The packing of the inputs. -/
def packing : Packing :=
  (Packing.start options).takeAll options target oldestSnapshot (mergeOrder inputs)

/-- The version packed last does not close its output. -/
def EndsOpen : Prop :=
  (packing options target oldestSnapshot inputs).builder.entries ≠ []
  deriving Decidable

/-- No output is closed between two versions of one key. -/
def Uncut : Prop :=
  (Packing.start options).Uncut options target oldestSnapshot (mergeOrder inputs)
  deriving Decidable

end

/-! ## Outputs with keys of their own -/

namespace Packing

variable {options : Options} {target oldestSnapshot : Nat} {packing : Packing}
  {order : List Entry} {entry : Entry}

/-- The outputs are in order and no key is in two of them, and the keys still to come are not
smaller than any packed one and in no closed output. -/
structure Layered (packing : Packing) (order : List Entry) : Prop where
  coming : KeySorted Entry.key order
  groups : ∀ group ∈ packing.closed, KeySorted Entry.key group ∧ group ≠ []
  sorted : KeySorted Entry.key packing.builder.entries
  apart : packing.closed.Pairwise fun front back =>
    ∀ first ∈ front, ∀ second ∈ back, first.key < second.key
  before : ∀ group ∈ packing.closed, ∀ first ∈ group, ∀ second ∈ packing.builder.entries,
    first.key < second.key
  passed : ∀ group ∈ packing.closed, ∀ first ∈ group, ∀ second ∈ order, first.key < second.key
  current : ∀ first ∈ packing.builder.entries, ∀ second ∈ order, first.key ≤ second.key

theorem layered_start (sorted : KeySorted Entry.key order) : Layered (start options) order :=
  ⟨sorted, nofun, List.Pairwise.nil, List.Pairwise.nil, nofun, nofun, nofun⟩

section

variable (layered : Layered packing (entry :: order))
include layered

theorem Layered.skip : Layered packing order :=
  { layered with
    coming := (pairwise_cons.mp layered.coming).2
    passed := fun group closed first member second later =>
      layered.passed group closed first member second (mem_cons_of_mem _ later)
    current := fun first member second later =>
      layered.current first member second (mem_cons_of_mem _ later) }

/-- The open output with the next version. -/
theorem Layered.keySorted_add : KeySorted Entry.key (packing.builder.add entry).entries := by
  rw [entries_add]
  refine pairwise_append.mpr ⟨layered.sorted, pairwise_singleton _ _, fun first member => ?_⟩
  exact forall_mem_singleton.mpr (layered.current first member entry mem_cons_self)

/-- The open output takes the version. -/
theorem Layered.add (lastKey : Bytes) (lastSeq : Nat) :
    Layered ⟨packing.closed, packing.builder.add entry, lastKey, lastSeq⟩ order where
  coming := layered.skip.coming
  groups := layered.groups
  sorted := layered.keySorted_add
  apart := layered.apart
  before group closed first member second added := by
    rw [entries_add] at added
    exact forall_mem_append.mpr ⟨layered.before group closed first member,
      forall_mem_singleton.mpr (layered.passed group closed first member entry mem_cons_self)⟩
      second added
  passed := layered.skip.passed
  current first added second later := by
    rw [entries_add] at added
    rcases mem_append.mp added with old | new
    · exact layered.current first old second (mem_cons_of_mem _ later)
    · rw [mem_singleton.mp new]
      exact (pairwise_cons.mp layered.coming).1 second later

/-- An output is closed behind the last version of a key. -/
theorem Layered.close (last : ∀ next ∈ order.head?, next.key ≠ entry.key) {lastKey : Bytes}
    {lastSeq : Nat} :
    Layered ⟨packing.closed ++ [(packing.builder.add entry).entries], .new options, lastKey,
      lastSeq⟩ order := by
  have added := layered.add lastKey lastSeq
  have larger : ∀ second ∈ order, entry.key < second.key := by
    cases order with
    | nil => nofun
    | cons next _ =>
      have above : entry.key < next.key :=
        lt_of_le_of_ne ((pairwise_cons.mp layered.coming).1 next mem_cons_self) (last next rfl).symm
      intro second later
      rcases mem_cons.mp later with rfl | further
      · exact above
      · exact lt_of_lt_of_le above ((pairwise_cons.mp added.coming).1 second further)
  refine ⟨added.coming, ?_, List.Pairwise.nil, ?_, nofun, ?_, nofun⟩
  · refine forall_mem_append.mpr ⟨layered.groups, forall_mem_singleton.mpr ?_⟩
    exact ⟨layered.keySorted_add, by simp [entries_add]⟩
  · refine pairwise_append.mpr ⟨layered.apart, pairwise_singleton _ _, fun group closed => ?_⟩
    exact forall_mem_singleton.mpr (added.before group closed)
  · refine forall_mem_append.mpr ⟨added.passed, forall_mem_singleton.mpr ?_⟩
    rw [entries_add]
    refine forall_mem_append.mpr ⟨fun first old second later => ?_, forall_mem_singleton.mpr larger⟩
    exact lt_of_le_of_lt (layered.current first old entry mem_cons_self) (larger second later)

theorem Layered.take
    (last : packing.Closes target oldestSnapshot entry →
      ∀ next ∈ order.head?, next.key ≠ entry.key) :
    Layered (packing.take options target oldestSnapshot entry) order := by
  unfold Packing.take
  split
  · exact layered.skip
  rename_i kept
  split
  · rename_i reached
    exact layered.close (last ⟨kept, reached⟩)
  · exact layered.add _ _

end

/-- Outputs cut between keys are disjoint. -/
theorem Layered.takeAll (layered : Layered packing order)
    (uncut : packing.Uncut options target oldestSnapshot order) :
    Layered (packing.takeAll options target oldestSnapshot order) [] := by
  induction order generalizing packing with
  | nil => exact layered
  | cons _ _ ih => exact ih (layered.take uncut.1) uncut.2

end Packing

/-! ## The loop packs -/

/-- A source without the versions of a key at its front. -/
def Source.skipKey (key : Bytes) (source : Source) : Source :=
  { source with rest := source.rest.dropWhile fun entry => decide (entry.key = key) }

section Skipping

variable {options : Options} {target oldestSnapshot : Nat} {packing : Packing}
  {sources : List Source} {best : Pick}

theorem Packing.take_of_skips (skips : packing.Skips oldestSnapshot entry) :
    packing.take options target oldestSnapshot entry = packing := if_pos skips

theorem map_skipKey (above : ∀ source ∈ sources, ∀ entry ∈ source.rest, key < entry.key) :
    sources.map (skipKey key) = sources := by
  refine (map_congr_left ?_).trans (map_id sources)
  rintro ⟨_, _ | ⟨head, _⟩⟩ member
  · rfl
  · have different : head.key ≠ key := (above _ member head mem_cons_self).ne'
    simp [skipKey, different]

/-- While a key is skipped, its versions at the front of the sources make no difference. -/
theorem Packing.takeAll_skipKey (named : packing.lastKey ≠ [])
    (unneeded : packing.lastSeq ≤ oldestSnapshot) (sorted : SourcesSorted sources)
    (bounded : ∀ source ∈ sources, ∀ entry ∈ source.rest, packing.lastKey ≤ entry.key) :
    packing.takeAll options target oldestSnapshot (drain sources) =
      packing.takeAll options target oldestSnapshot
        (drain (sources.map (Source.skipKey packing.lastKey))) := by
  induction sources using drain_induction with
  | finished sources finished =>
    rw [map_skipKey]
    intro source member entry inside
    rw [rest_eq_nil_of_pick finished source member] at inside
    cases inside
  | advanced sources best picked ih =>
    have split := pick_split picked
    by_cases own : best.entry.key = packing.lastKey
    · have dropped : best.advanced.map (skipKey packing.lastKey) =
          sources.map (skipKey packing.lastKey) := by
        rw [split]
        simp [Pick.advanced, skipKey, own]
      rw [drain_of_pick picked, Packing.takeAll, foldl_cons,
        Packing.take_of_skips ⟨named, own, unneeded⟩, ← dropped]
      exact ih (sorted.advanced picked) (forall_exchanged picked bounded fun entry inside =>
        bounded _ (picked_mem picked) entry (mem_cons_of_mem _ inside))
    · -- The key is behind all sources.
      have above : packing.lastKey < best.entry.key := by
        have least := bounded _ (picked_mem picked) best.entry mem_cons_self
        exact lt_of_le_of_ne least (Ne.symm own)
      rw [map_skipKey fun source member entry inside =>
        lt_of_lt_of_le above (sorted.pick_le picked member inside)]

end Skipping

namespace MergeState

variable {options : Options} {target oldestSnapshot : Nat} {state : MergeState} {best : Pick}

/-- What the loop has packed. -/
def packing (state : MergeState) : Packing :=
  ⟨state.added.map SSTable.entries, state.builder, state.lastKey, state.lastSeqWritten⟩

/-- A round that does not skip packs the picked version. -/
theorem packing_round (kept : ¬ state.packing.Skips oldestSnapshot best.entry) :
    (state.round options target oldestSnapshot best).packing =
        state.packing.take options target oldestSnapshot best.entry ∧
      (state.round options target oldestSnapshot best).sources = best.advanced := by
  have written : state.round options target oldestSnapshot best =
      if target ≤ (state.builder.add best.entry).fileSize then
        (state.write best).startNewOutput options
      else state.write best := if_neg kept
  rw [written, Packing.take, if_neg kept]
  by_cases reached : target ≤ (state.builder.add best.entry).fileSize
  · rw [if_pos reached, if_pos (show target ≤ (state.packing.builder.add _).fileSize from reached)]
    refine ⟨?_, rfl⟩
    simp [packing, startNewOutput, write]
  · rw [if_neg reached,
      if_neg (show ¬ target ≤ (state.packing.builder.add _).fileSize from reached)]
    exact ⟨rfl, rfl⟩

/-- The open output holds as many versions as were counted. -/
theorem outputCount_round (counted : state.outputCount = state.builder.entries.length) :
    (state.round options target oldestSnapshot best).outputCount =
      (state.round options target oldestSnapshot best).builder.entries.length := by
  unfold MergeState.round
  split
  · exact counted
  · split
    · rfl
    · simp [write, counted]

/-- `output_count` counts the versions of the open output. -/
theorem outputCount_loop (counted : state.outputCount = state.builder.entries.length) (fuel : Nat) :
    (state.loop options target oldestSnapshot fuel).outputCount =
      (state.loop options target oldestSnapshot fuel).builder.entries.length :=
  loop_keeps (P := fun state => state.outputCount = state.builder.entries.length)
    (fun _ counted => outputCount_round counted) counted fuel

/-- The loop packs the versions of its sources in the order of the heap. -/
theorem packing_loop (sorted : SourcesSorted state.sources) (fuel : Nat)
    (enough : state.remaining ≤ fuel) :
    (state.loop options target oldestSnapshot fuel).packing =
      state.packing.takeAll options target oldestSnapshot (drain state.sources) := by
  induction fuel generalizing state with
  | zero =>
    have none_left : pick state.sources = none := by
      cases picked : pick state.sources with
      | none => rfl
      | some _ =>
        have positive : state.remaining = _ := pendingCount_advanced picked
        omega
    rw [drain_of_none none_left]
    rfl
  | succ fuel ih =>
    unfold MergeState.loop
    cases picked : pick state.sources with
    | none =>
      rw [drain_of_none picked]
      rfl
    | some best =>
      have less := remaining_round options target oldestSnapshot picked
      have shorter : (state.round options target oldestSnapshot best).remaining ≤ fuel := by omega
      dsimp only
      rw [drain_of_pick picked, Packing.takeAll, foldl_cons]
      by_cases skips : state.packing.Skips oldestSnapshot best.entry
      · -- The source drops the key at once; one by one its versions are skipped as well.
        have round_eq : state.round options target oldestSnapshot best = state.skip best :=
          if_pos skips
        rw [round_eq] at shorter ⊢
        have after : SourcesSorted (state.skip best).sources :=
          forall_exchanged picked sorted
            ((sorted _ (picked_mem picked)).sublist (dropWhile_sublist _))
        have bounded : ∀ source ∈ state.sources, ∀ entry ∈ source.rest,
            state.packing.lastKey ≤ entry.key := by
          intro _ member _ inside
          exact skips.2.1 ▸ sorted.pick_le picked member inside
        have own := bounded _ (picked_mem picked)
        have fewer := (dropWhile_sublist (l := best.entry :: best.rest) fun entry =>
          decide (entry.key = state.lastKey)).subset
        have same : best.advanced.map (skipKey state.packing.lastKey) =
            (state.skip best).sources.map (skipKey state.packing.lastKey) := by
          have same_key : best.entry.key = state.lastKey := skips.2.1
          simp [Pick.advanced, MergeState.skip, skipKey, packing, same_key, dropWhile_idempotent]
        rw [ih after shorter, Packing.take_of_skips skips]
        change state.packing.takeAll _ _ _ _ = state.packing.takeAll _ _ _ _
        rw [Packing.takeAll_skipKey skips.1 skips.2.2 after (forall_exchanged picked bounded
            fun entry inside => own entry (fewer inside)),
          Packing.takeAll_skipKey skips.1 skips.2.2 (sorted.advanced picked) (forall_exchanged
            picked bounded fun entry inside => own entry (mem_cons_of_mem _ inside)), same]
      · obtain ⟨packed, advanced⟩ := @packing_round options target _ _ _ skips
        rw [ih (advanced ▸ sorted.advanced picked) shorter, packed, advanced]
        rfl

end MergeState

/-! ## No key is lost -/

/-! This needs no order in the inputs: a version is dropped only while its key is the one written
last. -/

namespace MergeState

variable {inputs : List SSTable} {options : Options} {target oldestSnapshot : Nat}
  {state : MergeState} {best : Pick}

/-- Every input version is still in a source, or its key is written; and so is the last key. -/
structure Retains (inputs : List SSTable) (state : MergeState) : Prop where
  last : state.lastKey ≠ [] → ∃ entry ∈ state.written, entry.key = state.lastKey
  kept : ∀ entry ∈ versionsOf inputs,
    state.Pending entry ∨ ∃ held ∈ state.written, held.key = entry.key

theorem retains_start {options : Options} {nextFileId : Nat} :
    Retains inputs (MergeState.start options nextFileId inputs) where
  last named := absurd rfl named
  kept entry member := by
    obtain ⟨_, inside, held⟩ := mem_versionsOf.mp member
    exact .inl ⟨_, mem_map_of_mem inside, held⟩

section

variable (retains : Retains inputs state)
include retains

/-- A skipped version has the key that was written last. -/
theorem Retains.skip (picked : pick state.sources = some best)
    (named : state.lastKey ≠ []) : Retains inputs (state.skip best) where
  last := retains.last
  kept entry member := by
    rcases retains.kept entry member with pending | written
    · rcases (MergeInv.pending_skip picked).mp pending with dropped | still
      · obtain ⟨last, listed, same⟩ := retains.last named
        have own : entry.key = state.lastKey := by simpa using mem_takeWhile_imp dropped
        exact .inr ⟨last, listed, same.trans own.symm⟩
      · exact .inl still
    · exact .inr written

theorem Retains.write (picked : pick state.sources = some best) :
    Retains inputs (state.write best) where
  last _ := by
    rw [MergeInv.written_write]
    exact ⟨best.entry, mem_append_right _ mem_cons_self, rfl⟩
  kept entry member := by
    rw [MergeInv.written_write]
    rcases retains.kept entry member with pending | ⟨held, listed, same⟩
    · rcases (MergeInv.pending_write picked).mp pending with rfl | still
      · exact .inr ⟨best.entry, mem_append_right _ mem_cons_self, rfl⟩
      · exact .inl still
    · exact .inr ⟨held, mem_append_left _ listed, same⟩

theorem Retains.startNewOutput : Retains inputs (state.startNewOutput options) := by
  refine ⟨fun named => absurd rfl named, ?_⟩
  rw [MergeInv.written_startNewOutput]
  exact retains.kept

/-- No key is lost. -/
theorem Retains.loop : Retains inputs (state.loop options target oldestSnapshot fuel) := by
  refine loop_keeps ?_ retains fuel
  intro _ _ picked retains
  unfold MergeState.round
  split
  · rename_i skips
    exact retains.skip picked skips.1
  · split
    · exact (retains.write picked).startNewOutput
    · exact retains.write picked

end

end MergeState

/-- A merge that succeeds has every key of its inputs in its outputs. -/
theorem compactTo_retains {options : Options} {target oldestSnapshot nextFileId : Nat}
    (succeeded : (compactTo options target oldestSnapshot nextFileId inputs).status.isOk = true) :
    ∀ entry ∈ versionsOf inputs,
      ∃ held ∈ versionsOf (compactTo options target oldestSnapshot nextFileId inputs).added,
        held.key = entry.key := by
  intro entry member
  have retains : MergeState.Retains inputs ((MergeState.start options nextFileId inputs).loop
      options target oldestSnapshot (MergeState.start options nextFileId inputs).remaining) :=
    MergeState.retains_start.loop
  have finished := @MergeState.finished_loop (MergeState.start options nextFileId inputs) options
    target oldestSnapshot _ (le_refl _)
  unfold compactTo at succeeded ⊢
  split at succeeded
  · rename_i empty
    rw [isEmpty_iff.mp empty] at member
    cases member
  rename_i filled
  rw [if_neg filled]
  dsimp only at succeeded ⊢
  split at succeeded
  · cases succeeded
  rename_i written
  rw [if_neg written]
  rcases retains.kept entry member with ⟨source, inside, held⟩ | found
  · rw [rest_eq_nil_of_pick finished source inside] at held
    cases held
  · rwa [MergeInv.versionsOf_outputs]

/-! ## The result -/

section Result

variable {options : Options} {target oldestSnapshot : Nat} {inputs : List SSTable}

/-- A merge of tables whose keys are in order succeeds exactly if its packing ends open, and
its outputs are the packed ones. -/
theorem compactTo_packing (nextFileId : Nat) (some_input : inputs ≠ [])
    (sorted : ∀ table ∈ inputs, KeySorted Entry.key table.entries) :
    let result := compactTo options target oldestSnapshot nextFileId inputs
    let packed := packing options target oldestSnapshot inputs
    result.written.map SSTable.entries = packed.closed ++ [packed.builder.entries] ∧
      (EndsOpen options target oldestSnapshot inputs →
        result.status = .ok ∧ result.added = result.written) ∧
      (result.status = .ok → EndsOpen options target oldestSnapshot inputs) := by
  have sources : SourcesSorted (MergeState.start options nextFileId inputs).sources := by
    intro _ member
    obtain ⟨table, inside, rfl⟩ := mem_map.mp member
    exact sorted table inside
  have packed := @MergeState.packing_loop options target oldestSnapshot _ sources _ (le_refl _)
  have counted := @MergeState.outputCount_loop options target oldestSnapshot
    (MergeState.start options nextFileId inputs) rfl
    (MergeState.start options nextFileId inputs).remaining
  change _ = packing options target oldestSnapshot inputs at packed
  unfold compactTo EndsOpen
  rw [if_neg (by simpa using some_input), ← packed]
  dsimp only
  generalize (MergeState.start options nextFileId inputs).loop options target oldestSnapshot
    (MergeState.start options nextFileId inputs).remaining = state at counted ⊢
  split
  · rename_i empty
    have nothing : state.builder.entries = [] := length_eq_zero_iff.mp (counted ▸ empty)
    exact ⟨by simp [MergeState.packing], fun filled => absurd nothing filled, nofun⟩
  · rename_i filled
    refine ⟨by simp [MergeState.packing], fun _ => ⟨rfl, rfl⟩, fun _ nothing => ?_⟩
    exact filled (by rw [counted, show state.builder.entries = [] from nothing]; rfl)

/-- The outputs of a merge that cuts no key are in order, each with keys of its own. -/
theorem compactTo_layered
    (succeeded : (compactTo options target oldestSnapshot nextFileId inputs).status = .ok)
    (some_input : inputs ≠ []) (sorted : ∀ table ∈ inputs, KeySorted Entry.key table.entries)
    (uncut : Uncut options target oldestSnapshot inputs) :
    let added := (compactTo options target oldestSnapshot nextFileId inputs).added
    (∀ table ∈ added, KeySorted Entry.key table.entries ∧ table.entries ≠ []) ∧
      added.Pairwise fun front back => ∀ first ∈ front.entries, ∀ second ∈ back.entries,
        first.key < second.key := by
  obtain ⟨packed, succeeds, opened⟩ :=
    @compactTo_packing options target oldestSnapshot inputs nextFileId some_input sorted
  have endsOpen := opened succeeded
  have layered : (packing options target oldestSnapshot inputs).Layered [] :=
    (Packing.layered_start (keySorted_mergeOrder sorted)).takeAll uncut
  rw [← (succeeds endsOpen).2] at packed
  constructor
  · intro table member
    have group : table.entries ∈ (packing options target oldestSnapshot inputs).closed ++
        [(packing options target oldestSnapshot inputs).builder.entries] :=
      packed ▸ mem_map_of_mem member
    exact forall_mem_append.mpr ⟨layered.groups,
      forall_mem_singleton.mpr ⟨layered.sorted, endsOpen⟩⟩ _ group
  · have groups : ((compactTo options target oldestSnapshot nextFileId inputs).added.map
        SSTable.entries).Pairwise fun front back => ∀ first ∈ front, ∀ second ∈ back,
          first.key < second.key := by
      rw [packed]
      refine pairwise_append.mpr ⟨layered.apart, pairwise_singleton _ _, fun group closed => ?_⟩
      exact forall_mem_singleton.mpr (layered.before group closed)
    exact pairwise_map.mp groups

/-- A merge of tables whose keys are in order returns OK, with all its files registered and every
number it took, exactly if the version packed last does not close its output. -/
theorem compactTo_registers (nextFileId : Nat) (some_input : inputs ≠ [])
    (sorted : ∀ table ∈ inputs, KeySorted Entry.key table.entries) :
    let result := compactTo options target oldestSnapshot nextFileId inputs
    (result.status = .ok ∧ result.added = result.written ∧
      result.added.map SSTable.fileId = range' nextFileId (result.nextFileId - nextFileId)) ↔
        EndsOpen options target oldestSnapshot inputs := by
  obtain ⟨_, succeeds, opened⟩ :=
    @compactTo_packing options target oldestSnapshot inputs nextFileId some_input sorted
  refine ⟨fun registers => opened registers.1, fun endsOpen => ?_⟩
  obtain ⟨succeeded, registered⟩ := succeeds endsOpen
  obtain ⟨numbers, next⟩ := @compactTo_numbered options oldestSnapshot nextFileId inputs target
  refine ⟨succeeded, registered, ?_⟩
  rw [registered, numbers, next, Nat.add_sub_cancel_left]

/-- Two tables with a common key, of which a small target makes two outputs. -/
def twoOutputs : List SSTable :=
  [TableBuilder.build {} 1 [⟨[97], 0, .value, [1]⟩, ⟨[98], 1, .value, [1]⟩],
    TableBuilder.build {} 2 [⟨[97], 2, .value, [2]⟩, ⟨[99], 3, .deletion, []⟩]]

theorem compactTo_registers_twoOutputs :
    (compactTo { blockSize := 10 } 40 9 7 twoOutputs).status = .ok ∧
      (compactTo { blockSize := 10 } 40 9 7 twoOutputs).added.map SSTable.fileId = [7, 8] := by
  obtain ⟨succeeded, _, numbers⟩ := (@compactTo_registers { blockSize := 10 } 40 9 twoOutputs 7
    (by decide) (by decide +kernel)).mpr (by decide +kernel)
  exact ⟨succeeded, numbers.trans (by decide +kernel)⟩

theorem compactTo_of_large {table : SSTable} (only : table.entries = [entry])
    (large : target ≤ ((TableBuilder.new options).add entry).fileSize) (nextFileId : Nat) :
    (compactTo options target oldestSnapshot nextFileId [table]).status =
        .corruption ("compaction produced no usable output: output file " ++
          toString (nextFileId + 1) ++ ".sst is empty; the merge produced nothing for its inputs") ∧
      (compactTo options target oldestSnapshot nextFileId [table]).added = [] ∧
      (compactTo options target oldestSnapshot nextFileId [table]).written =
        [((TableBuilder.new options).add entry).finish nextFileId,
          (TableBuilder.new options).finish (nextFileId + 1)] := by
  simp [compactTo, MergeState.start, MergeState.remaining, pendingCount, only, MergeState.loop,
    pick, MergeState.round, MergeState.write, MergeState.startNewOutput, large]

end Result

/-- A table with one version, whose key has two mebibytes. -/
def largeVersion : SSTable :=
  TableBuilder.build {} 1 [⟨replicate (2 ^ 21) 107, 0, .value, [0, 1]⟩]

/-- Outputs of at least two mebibytes: the merge of the table fails and leaves both its files
unregistered. -/
theorem doCompaction_fails_on_largeVersion :
    ((doCompaction { memtableSize := 2 ^ 16 } (2 ^ 64 - 1) 2 [largeVersion] 1).status.isOk =
        false) ∧
      (doCompaction { memtableSize := 2 ^ 16 } (2 ^ 64 - 1) 2 [largeVersion] 1).added = [] ∧
      (doCompaction { memtableSize := 2 ^ 16 } (2 ^ 64 - 1) 2 [largeVersion] 1).written.map
        SSTable.fileId = [2, 3] := by
  have size : (2 : Nat) ^ 21 ≤ (replicate (2 ^ 21) (107 : UInt8)).length := by rw [length_replicate]
  have large : targetFileSize { memtableSize := 2 ^ 16 } 1 ≤
      ((new { memtableSize := 2 ^ 16 }).add ⟨replicate (2 ^ 21) 107, 0, .value, [0, 1]⟩).fileSize :=
    le_trans size (le_fileSize_add _ ⟨replicate (2 ^ 21) 107, 0, .value, [0, 1]⟩
      (le_trans (by decide) size))
  obtain ⟨failed, none_added, written⟩ := @compactTo_of_large _ _ (2 ^ 64 - 1) _ _
    (entries_build {} 1 [⟨replicate (2 ^ 21) 107, 0, .value, [0, 1]⟩]) large 2
  refine ⟨?_, none_added, ?_⟩
  · exact (congrArg Status.isOk failed).trans rfl
  · exact (congrArg (map SSTable.fileId) written).trans rfl

end LightKV
