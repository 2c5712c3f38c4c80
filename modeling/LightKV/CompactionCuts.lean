import Mathlib.Data.List.Flatten
import LightKV.CompactionMerge

/-!
# Where a merge cuts its outputs

An output is closed when its size has reached the target. The versions of one key can
therefore be spread over outputs, and if a single version reaches the target, an output
may hold nothing else: the next one can then begin with the same key.

`InsertIntoLevel` tells outputs apart by their first keys only. They are different if no
version that reaches the target by itself has another version of its key among the inputs
(`Alone`).
-/

namespace LightKV

open Versions List

namespace MergeState

/-- What the loop knows of its outputs: how they were built, that the closed ones have
reached the target, and that no input version is written twice. -/
structure Cut (options : Options) (target : Nat) (inputs : List SSTable) (state : MergeState) :
    Prop where
  built : state.builder = state.builder.entries.foldl TableBuilder.add (.new options)
  closed : ∀ table ∈ state.added,
    target ≤ (table.entries.foldl TableBuilder.add (.new options)).fileSize
  taken : (state.written ++ state.sources.flatMap Source.rest).Subperm (versionsOf inputs)

namespace Cut

variable {options : Options} {target : Nat} {inputs : List SSTable} {state : MergeState}

theorem start (options : Options) (target nextFileId : Nat) (inputs : List SSTable) :
    (MergeState.start options nextFileId inputs).Cut options target inputs where
  built := rfl
  closed := by simp [MergeState.start]
  taken := by
    have pending : (MergeState.start options nextFileId inputs).sources.flatMap Source.rest =
        versionsOf inputs := by simp [MergeState.start, versionsOf, flatMap_map]
    rw [pending]
    exact List.Subperm.refl _

section

variable (cut : state.Cut options target inputs)
include cut

/-- Skipping versions only takes them off a source. -/
theorem skip (picked : pick state.sources = some best) :
    (state.skip best).Cut options target inputs where
  built := cut.built
  closed := cut.closed
  taken := by
    have fewer : ((state.skip best).sources.flatMap Source.rest).Sublist
        (state.sources.flatMap Source.rest) := by
      rw [pick_split picked]
      simp only [MergeState.skip, flatMap_append]
      exact (List.Sublist.refl _).append ((dropWhile_sublist _).append (List.Sublist.refl _))
    exact ((List.Sublist.refl state.written).append fewer).subperm.trans cut.taken

/-- Writing moves a version from its source to the output. -/
theorem write (picked : pick state.sources = some best) :
    (state.write best).Cut options target inputs where
  built := by
    change state.builder.add best.entry = (state.builder.add best.entry).entries.foldl _ _
    rw [TableBuilder.entries_add, foldl_append, ← cut.built]
    rfl
  closed := cut.closed
  taken := by
    have moved : ((state.write best).written ++
        (state.write best).sources.flatMap Source.rest).Perm
          (state.written ++ state.sources.flatMap Source.rest) := by
      rw [MergeInv.written_write, pick_split picked]
      simp only [MergeState.write, flatMap_append, append_assoc,
        cons_append, nil_append]
      exact perm_middle.symm.append_left _
    exact moved.subperm.trans cut.taken

/-- Closing an output that has reached the target. -/
theorem startNewOutput (reached : target ≤ state.builder.fileSize) :
    (state.startNewOutput options).Cut options target inputs where
  built := rfl
  closed := by
    intro table member
    rcases mem_append.mp member with old | new
    · exact cut.closed table old
    · rw [mem_singleton.mp new, TableBuilder.entries_finish, ← cut.built]
      exact reached
  taken := by
    rw [MergeInv.written_startNewOutput]
    exact cut.taken

theorem round (picked : pick state.sources = some best) :
    (state.round options target oldestSnapshot best).Cut options target inputs := by
  unfold MergeState.round
  split
  · exact cut.skip picked
  · split
    · rename_i reached
      exact (cut.write picked).startNewOutput reached
    · exact cut.write picked

theorem loop (oldestSnapshot fuel : Nat) :
    (state.loop options target oldestSnapshot fuel).Cut options target inputs :=
  loop_keeps (fun picked cut => cut.round picked) cut fuel

end

end Cut

end MergeState

/-- Every output but the last has reached the target, and no version is written twice. -/
theorem doCompaction_cut (options : Options) (oldestSnapshot nextFileId : Nat)
    (inputs : List SSTable) (outputLevel : Nat) :
    (∀ table ∈ (doCompaction options oldestSnapshot nextFileId inputs outputLevel).added.dropLast,
      targetFileSize options outputLevel ≤
        (table.entries.foldl TableBuilder.add (.new options)).fileSize) ∧
    (versionsOf (doCompaction options oldestSnapshot nextFileId inputs outputLevel).added).Subperm
      (versionsOf inputs) := by
  have cut := (MergeState.Cut.start options (targetFileSize options outputLevel) nextFileId
    inputs).loop oldestSnapshot (MergeState.start options nextFileId inputs).remaining
  unfold doCompaction compactTo
  split
  · exact ⟨by simp, nil_subperm⟩
  dsimp only
  split
  · exact ⟨by simp, nil_subperm⟩
  rw [dropLast_concat]
  refine ⟨cut.closed, ?_⟩
  have outputs : ∀ state : MergeState,
      versionsOf (state.added ++ [state.builder.finish state.fileId]) = state.written := by
    simp [versionsOf, MergeState.written]
  rw [outputs]
  exact (sublist_append_left _ _).subperm.trans cut.taken

/-- A version that reaches the target by itself is the only one of its key. -/
def Alone (options : Options) (target : Nat) (inputs : List SSTable) : Prop :=
  ∀ entry ∈ versionsOf inputs, target ≤ ((TableBuilder.new options).add entry).fileSize →
    ofKey Entry.key entry.key (versionsOf inputs) = [entry]
  deriving Decidable

/-- Outputs begin with different keys if large versions are alone. -/
theorem Merged.distinct_smallestKey (merged : Merged inputs outputs)
    (closed : ∀ table ∈ outputs.dropLast, target ≤ (table.entries.foldl TableBuilder.add (.new
      options)).fileSize) (taken : (versionsOf outputs).Subperm (versionsOf inputs))
    (alone : Alone options target inputs) :
    outputs.Pairwise fun first second => first.smallestKey ≠ second.smallestKey := by
  apply pairwise_iff_forall_sublist.mpr
  intro first second pair same
  have in_first : first ∈ outputs := pair.mem (by simp)
  have in_second : second ∈ outputs := pair.mem (by simp)
  obtain ⟨entry, rest, first_eq⟩ := exists_cons_of_ne_nil (merged.filled first in_first)
  obtain ⟨other, others, second_eq⟩ := exists_cons_of_ne_nil (merged.filled second in_second)
  have same_key : entry.key = other.key := by
    rwa [SSTable.bounds.first_eq first entry rest first_eq,
      SSTable.bounds.first_eq second other others second_eq] at same
  have both : (first.entries ++ second.entries).Sublist (versionsOf outputs) := by
    simpa [versionsOf] using pair.flatMap SSTable.entries
  -- The first output has nothing behind its first version, as the second one begins there.
  have only : rest = [] := by
    apply eq_nil_iff_forall_not_mem.mpr
    intro behind member
    have above : entry.key < behind.key := by
      have increasing := merged.increasing first in_first
      rw [first_eq] at increasing
      exact (pairwise_cons.mp increasing).1 behind member
    have ordered := merged.ordered.sublist both
    rw [first_eq, second_eq] at ordered
    have before := (pairwise_append.mp ordered).2.2 behind (mem_cons_of_mem _ member)
      other mem_cons_self
    exact absurd (lt_of_lt_of_le above before.key_le) (by rw [same_key]; exact lt_irrefl _)
  subst only
  have front : first ∈ outputs.dropLast := by
    have behind : [first].Sublist outputs.dropLast.reverse := by
      rw [← tail_reverse]
      exact pair.reverse.tail
    exact mem_reverse.mp (behind.mem mem_cons_self)
  have reached := closed first front
  rw [first_eq] at reached
  have listed : entry ∈ versionsOf outputs := both.mem (by simp [first_eq])
  have once := alone entry (taken.subset listed) reached
  have twice : [entry, other].Sublist (first.entries ++ second.entries) := by
    rw [first_eq, second_eq]
    exact (List.Sublist.refl [entry]).append ((nil_sublist others).cons_cons other)
  have counted : (ofKey Entry.key entry.key [entry, other]).Subperm
      (ofKey Entry.key entry.key (versionsOf inputs)) :=
    ((twice.trans both).subperm.trans taken).filter _
  rw [once] at counted
  have bound := counted.length_le
  simp [ofKey_cons, same_key] at bound

end LightKV
