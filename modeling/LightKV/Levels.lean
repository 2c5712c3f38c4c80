import LightKV.LowerBound
import LightKV.Versions

/-!
# Levels of sorted files

A level is a list of files, each holding a sorted run of versioned entries, such that the
runs one after another are again sorted. One key may still have versions in two
neighbouring files; its newest versions are then in the earlier one.

Two things are done with a level. A reader looks for the first file whose last key
reaches the wanted key and reads that file only. A writer inserts a file in front of the
first one whose first key is not smaller than its own. The second keeps the level sorted
only if no file already there begins with the same key and an equally new or newer
version: `Follows` is that condition.
-/

namespace LightKV.Levels

open Versions LowerBound List

universe u v w x

variable {α : Type u} {K : Type v} {R : Type w} {F : Type x}

/-- The first and last key recorded for a file are those of its run. -/
structure Bounds (key : α → K) (run : F → List α) (first last : F → K) : Prop where
  first_eq : ∀ file entry rest, run file = entry :: rest → first file = key entry
  last_eq : ∀ file front entry, run file = front ++ [entry] → last file = key entry

/-- Some entry of a nonempty run has the last key. -/
theorem Bounds.exists_last (bounds : Bounds key run first last) (nonempty : run file ≠ []) :
    ∃ entry ∈ run file, key entry = last file := by
  have split := (dropLast_concat_getLast nonempty).symm
  exact ⟨_, getLast_mem nonempty, (bounds.last_eq file _ _ split).symm⟩

/-- Some entry of a nonempty run has the first key. -/
theorem Bounds.exists_first (bounds : Bounds key run first last) (nonempty : run file ≠ []) :
    ∃ entry ∈ run file, key entry = first file := by
  obtain ⟨entry, rest, run_eq⟩ := exists_cons_of_ne_nil nonempty
  exact ⟨entry, by rw [run_eq]; exact mem_cons_self, (bounds.first_eq file entry rest run_eq).symm⟩

variable [LinearOrder K] [LinearOrder R]

/-- A level: no run is empty, each is sorted, and they are in order. -/
structure Level (key : α → K) (rank : α → R) (run : F → List α) (files : List F) : Prop where
  nonempty : ∀ file ∈ files, run file ≠ []
  sorted : ∀ file ∈ files, Sorted key rank (run file)
  apart : files.Pairwise fun earlier later => Precedes key rank (run earlier) (run later)

/-- Insert a file in front of the first one whose first key is not smaller. -/
def insertFile (first : F → K) (file : F) (files : List F) : List F :=
  let pos := lowerBound (fun other => decide (first other < first file)) files
  files.take pos ++ file :: files.drop pos

/-- The first file whose last key reaches the wanted key. -/
def locate (last : F → K) (wanted : K) (files : List F) : Option F :=
  files[lowerBound (fun file => decide (last file < wanted)) files]?

/-- The new run begins with a newer version than every run that begins with its key. -/
def Follows (key : α → K) (rank : α → R) (run : F → List α) (file : F) (files : List F) : Prop :=
  ∀ other ∈ files, ∀ entry rest start others, run other = entry :: rest →
    run file = start :: others → key entry = key start → rank entry < rank start

variable {first : F → K}

theorem mem_insertFile : other ∈ insertFile first file files ↔ other = file ∨ other ∈ files := by
  unfold insertFile
  rw [mem_append, mem_cons, or_left_comm, ← mem_append, take_append_drop]

theorem insertFile_eq_insertFront (ordered : KeySorted first files) :
    insertFile first file files = insertFront first file files := by
  have partitioned := @KeySorted.partitioned _ _ _ _ (first file) _ ordered
  unfold Levels.insertFile
  dsimp only
  rw [partitioned.take_lowerBound, partitioned.drop_lowerBound]
  rfl

variable {key : α → K} {rank : α → R} {run : F → List α} {first last : F → K} {files : List F}

/-- A sorted run starts with its smallest key and ends with its largest. -/
theorem Bounds.first_le (bounds : Bounds key run first last) (sorted : KeySorted key (run file))
    (member : entry ∈ run file) : first file ≤ key entry := by
  cases run_eq : run file with
  | nil => simp [run_eq] at member
  | cons start rest =>
    rw [bounds.first_eq file start rest run_eq]
    rw [run_eq] at member sorted
    rcases mem_cons.mp member with rfl | behind
    · exact le_refl _
    · exact (pairwise_cons.mp sorted).1 entry behind

theorem Bounds.le_last (bounds : Bounds key run first last) (sorted : KeySorted key (run file))
    (member : entry ∈ run file) : key entry ≤ last file := by
  have nonempty : run file ≠ [] := ne_nil_of_mem member
  have split := (dropLast_concat_getLast nonempty).symm
  rw [bounds.last_eq file _ _ split]
  rw [split] at member sorted
  rcases mem_append.mp member with front | final
  · exact (pairwise_append.mp sorted).2.2 entry front _ mem_cons_self
  · rw [mem_singleton.mp final]

section

variable (level : Level key rank run files)
include level

/-- Two different files of a level are in order one way or the other. -/
theorem Level.precedes_or {first second : F} (in_first : first ∈ files)
    (in_second : second ∈ files) (different : first ≠ second) :
    Precedes key rank (run first) (run second) ∨ Precedes key rank (run second) (run first) := by
  have either := related_or level.apart in_first in_second different
  exact either

/-! ## Reading -/

/-- Keys that the files of a level hold do not decrease. -/
theorem Level.keySorted {bound : F → K}
    (attained : ∀ {file}, run file ≠ [] → ∃ entry ∈ run file, key entry = bound file) :
    KeySorted bound files := by
  refine (List.Pairwise.and_mem.mp level.apart).imp ?_
  rintro earlier later ⟨in_earlier, in_later, precedes⟩
  obtain ⟨entry, inside, entry_eq⟩ := attained (level.nonempty earlier in_earlier)
  obtain ⟨other, other_inside, other_eq⟩ := attained (level.nonempty later in_later)
  exact entry_eq ▸ other_eq ▸ (precedes entry inside other other_inside).key_le

section

variable (bounds : Bounds key run first last)
include bounds

theorem Level.partitioned_last (wanted : K) :
    Partitioned (fun file => decide (last file < wanted)) files :=
  (level.keySorted bounds.exists_last).partitioned

/-- If no last key reaches the wanted key, the level does not hold it. -/
theorem Level.absent_of_past_end (past : locate last wanted files = none) :
    ∀ file ∈ files, ∀ entry ∈ run file, key entry ≠ wanted := by
  have partitioned := level.partitioned_last bounds wanted
  have behind : files.dropWhile (fun file => decide (last file < wanted)) = [] := by
    rw [← partitioned.drop_lowerBound, drop_eq_nil_iff]
    exact getElem?_eq_none_iff.mp past
  intro file member _ inside same
  have front : file ∈ files.takeWhile (fun file => decide (last file < wanted)) := by
    have split := takeWhile_append_dropWhile
      (p := fun file => decide (last file < wanted)) (l := files)
    rw [behind, append_nil] at split
    rw [split]
    exact member
  have below : last file < wanted := by simpa using mem_takeWhile_imp front
  exact absurd (lt_of_le_of_lt (bounds.le_last (level.sorted file member).keySorted inside) below)
    (by rw [same]; exact lt_irrefl _)

/-- The file found by its last key holds, of every version in the level, one that is at
least as new; and if it begins behind the wanted key, the level does not hold it. -/
theorem Level.newest_in_found (located : locate last wanted files = some found) :
    found ∈ files ∧
      (∀ file ∈ files, ∀ entry ∈ run file, key entry = wanted →
        first found ≤ wanted ∧
          ∃ newer ∈ run found, key newer = wanted ∧ rank entry ≤ rank newer) := by
  have partitioned := level.partitioned_last bounds wanted
  have member := mem_of_getElem? located
  have behind : ∃ rest, files.dropWhile (fun file => decide (last file < wanted)) =
      found :: rest := by
    refine ⟨files.drop (lowerBound (fun file => decide (last file < wanted)) files + 1), ?_⟩
    rw [← partitioned.drop_lowerBound]
    obtain ⟨bound, found_eq⟩ := List.getElem?_eq_some_iff.mp located
    rw [← found_eq]
    exact drop_eq_getElem_cons bound
  obtain ⟨_, behind⟩ := behind
  have reached : ¬ last found < wanted := by
    have stopped := partitioned.not_below_of_mem_dropWhile (by rw [behind]; exact mem_cons_self)
    simpa using stopped
  have split := takeWhile_append_dropWhile
    (p := fun file => decide (last file < wanted)) (l := files)
  rw [behind] at split
  refine ⟨member, ?_⟩
  intro file inside entry held same
  rw [← split] at inside
  rcases mem_append.mp inside with front | back
  · have below : last file < wanted := by simpa using mem_takeWhile_imp front
    have in_files : file ∈ files := (takeWhile_sublist _).mem front
    have bound := bounds.le_last (level.sorted file in_files).keySorted held
    exact absurd (lt_of_le_of_lt bound below) (by rw [same]; exact lt_irrefl _)
  rcases mem_cons.mp back with rfl | later
  · exact ⟨same ▸ bounds.first_le (level.sorted file member).keySorted held, entry, held, same,
      le_refl _⟩
  -- The found file precedes this one, so its last entry is a version of the key too.
  have apart := level.apart
  rw [← split] at apart
  have precedes := (pairwise_cons.mp (pairwise_append.mp apart).2.1).1 file later
  obtain ⟨start, start_inside, start_eq⟩ := bounds.exists_first (level.nonempty found member)
  obtain ⟨final, final_inside, final_eq⟩ := bounds.exists_last (level.nonempty found member)
  have ordered := precedes final final_inside entry held
  have final_same : key final = wanted :=
    le_antisymm (same ▸ ordered.key_le) (final_eq ▸ le_of_not_gt reached)
  refine ⟨?_, final, final_inside, final_same, ordered.rank_le (final_same.trans same.symm)⟩
  rw [← start_eq, ← same]
  exact (precedes start start_inside entry held).key_le

end

/-! ## Writing -/

/-- Fewer files are still a level. -/
theorem Level.sublist (sublist : fewer.Sublist files) : Level key rank run fewer :=
  ⟨fun file member => level.nonempty file (sublist.mem member),
    fun file member => level.sorted file (sublist.mem member), level.apart.sublist sublist⟩

/-- Inserting a run that lies apart from every file keeps the level, if it follows the
runs that begin with its key. -/
theorem Level.insertFile (bounds : Bounds key run first last) (nonempty : run file ≠ [])
    (sorted : Sorted key rank (run file))
    (apart : ∀ other ∈ files, Precedes key rank (run other) (run file) ∨ Precedes key rank (run
      file) (run other)) (follows : Follows key rank run file files) :
    Level key rank run (insertFile first file files) := by
  obtain ⟨start, others, file_eq⟩ := exists_cons_of_ne_nil nonempty
  have start_eq := bounds.first_eq file start others file_eq
  have in_file : start ∈ run file := by rw [file_eq]; exact mem_cons_self
  have ordered := level.keySorted bounds.exists_first
  rw [insertFile_eq_insertFront ordered]
  refine ⟨?_, ?_, ordered.pairwise_insertFront level.apart ?_ ?_⟩
  · intro other member
    rcases mem_insertFront.mp member with rfl | old
    · exact nonempty
    · exact level.nonempty other old
  · intro other member
    rcases mem_insertFront.mp member with rfl | old
    · exact sorted
    · exact level.sorted other old
  · intro other in_files below
    rcases apart other in_files with precedes | reversed
    · exact precedes
    · obtain ⟨entry, inside, entry_eq⟩ := bounds.exists_first (level.nonempty other in_files)
      have ordered := (reversed start in_file entry inside).key_le
      rw [entry_eq, ← start_eq] at ordered
      exact absurd (lt_of_le_of_lt ordered below) (lt_irrefl _)
  · intro other in_files reaches
    rcases apart other in_files with reversed | precedes
    · -- Both begin with one key; the condition rules out that the old run is the newer one.
      obtain ⟨entry, rest, other_eq⟩ := exists_cons_of_ne_nil (level.nonempty other in_files)
      have entry_eq := bounds.first_eq other entry rest other_eq
      have ordered := reversed entry (by rw [other_eq]; exact mem_cons_self) start in_file
      have same : key entry = key start :=
        le_antisymm ordered.key_le (start_eq ▸ entry_eq ▸ reaches)
      have newer := follows other in_files entry rest start others other_eq file_eq same
      exact absurd (lt_of_le_of_lt (ordered.rank_le same) newer) (lt_irrefl _)
    · exact precedes

end

/-- Insert several files one after another. -/
def insertFiles (first : F → K) (added files : List F) : List F :=
  added.foldl (fun files file => insertFile first file files) files

theorem insertFiles_cons :
    insertFiles first (file :: added) files =
      insertFiles first added (insertFile first file files) := rfl

theorem mem_insertFiles :
    other ∈ insertFiles first added files ↔ other ∈ added ∨ other ∈ files := by
  induction added generalizing files with
  | nil => simp [insertFiles]
  | cons _ _ ih => rw [insertFiles_cons, ih, mem_insertFile, mem_cons, or_left_comm, or_assoc]

/-- Inserted files are added to those there. -/
theorem insertFiles_perm (files : List F) :
    (insertFiles first added files).Perm (added ++ files) := by
  induction added generalizing files with
  | nil => exact List.Perm.refl _
  | cons file added ih =>
    have inserted : (insertFile first file files).Perm (file :: files) := by
      unfold insertFile
      generalize lowerBound _ files = pos
      have moved : (files.take pos ++ file :: files.drop pos).Perm
          (file :: (files.take pos ++ files.drop pos)) := perm_middle
      rwa [take_append_drop] at moved
    exact (ih _).trans ((List.Perm.append_left added inserted).trans perm_middle)

/-- Inserting runs that are in order among themselves and apart from the level, each of
them beginning with a key of its own. -/
theorem Level.insertFiles (bounds : Bounds key run first last)
    (level : Level key rank run files) (added_level : Level key rank run added)
    (apart : ∀ file ∈ added, ∀ other ∈ files, Precedes key rank (run other) (run file) ∨
      Precedes key rank (run file) (run other))
    (distinct : added.Pairwise fun file other => first file ≠ first other)
    (follows : ∀ file ∈ added, Follows key rank run file files) :
    Level key rank run (insertFiles first added files) := by
  induction added generalizing files with
  | nil => exact level
  | cons file _ ih =>
    obtain ⟨later, _⟩ := pairwise_cons.mp added_level.apart
    obtain ⟨differs, rest_distinct⟩ := pairwise_cons.mp distinct
    have inserted := level.insertFile bounds
      (added_level.nonempty file mem_cons_self)
      (added_level.sorted file mem_cons_self) (apart file mem_cons_self)
      (follows file mem_cons_self)
    refine ih inserted (added_level.sublist (sublist_cons_self _ _)) ?_ rest_distinct ?_
    · intro other member present in_level
      rcases mem_insertFile.mp in_level with rfl | old
      · exact .inl (later other member)
      · exact apart other (mem_cons_of_mem _ member) present old
    intro other member present in_level entry rest start others present_eq other_eq same
    rcases mem_insertFile.mp in_level with rfl | old
    · refine absurd ?_ (differs other member)
      rw [bounds.first_eq present entry rest present_eq,
        bounds.first_eq other start others other_eq, same]
    · exact follows other (mem_cons_of_mem _ member) present old entry rest start others
        present_eq other_eq same

/-! ## The order of insertions -/

/-! Files are only looked at through their first keys, which every insertion keeps in order. So
a level can be rebuilt from the order in which its files were inserted, and files that were
taken out since then need not be inserted at all. -/

section Insertions

omit [LinearOrder R]

/-- Leaving files out commutes with insertions. -/
theorem filter_insertFiles (ordered : KeySorted first files) :
    (insertFiles first added files).filter keep =
      insertFiles first (added.filter keep) (files.filter keep) := by
  induction added generalizing files with
  | nil => rfl
  | cons file _ ih =>
    have fewer : KeySorted first (files.filter keep) := ordered.sublist filter_sublist
    rw [insertFiles_cons, insertFile_eq_insertFront ordered, ih ordered.insertFront,
      ordered.filter_insertFront, filter_cons]
    split
    · rw [← insertFile_eq_insertFront fewer]
      rfl
    · rfl

/-! ## Files with disjoint ranges -/

/-- The files are in order, and no two of their closed key ranges meet. -/
def Separated (first last : F → K) (files : List F) : Prop :=
  files.Pairwise fun front back => last front < first back
  deriving Decidable

/-- Of two files one ends before the other begins. -/
def Apart (first last : F → K) (file other : F) : Prop :=
  last file < first other ∨ last other < first file

section Separated

variable {first last : F → K} {files : List F}

theorem Apart.symm (apart : Apart first last file other) : Apart first last other file :=
  Or.symm apart

section

variable (separated : Separated first last files)
include separated

/-- Two different files of a separated level are apart. -/
theorem Separated.apart (in_files : file ∈ files) (inside : other ∈ files)
    (different : file ≠ other) : Apart first last file other :=
  related_or separated in_files inside different

section

variable (ranges : ∀ file ∈ files, first file ≤ last file)
include ranges

theorem Separated.keySorted : KeySorted first files := by
  refine (List.Pairwise.and_mem.mp separated).imp ?_
  rintro front _ ⟨inside, _, before⟩
  exact le_of_lt (lt_of_le_of_lt (ranges front inside) before)

/-- A file that is apart from all others can be inserted. -/
theorem Separated.insertFile
    (range : first file ≤ last file) (apart : ∀ other ∈ files, Apart first last file other) :
    Separated first last (insertFile first file files) := by
  have ordered := separated.keySorted ranges
  rw [insertFile_eq_insertFront ordered]
  refine ordered.pairwise_insertFront separated ?_ ?_
  · intro other present smaller
    rcases apart other present with reversed | before
    · exact absurd (lt_of_le_of_lt range reversed) (not_lt_of_gt smaller)
    · exact before
  · intro other present reaches
    rcases apart other present with before | reversed
    · exact before
    · exact absurd (lt_of_le_of_lt (ranges other present) reversed) (not_lt_of_ge reaches)

/-- Files that are apart from each other and from all others can be inserted. -/
theorem Separated.insertFiles (new_ranges : ∀ file ∈ added, first file ≤ last file)
    (pairwise : added.Pairwise (Apart first last))
    (apart : ∀ file ∈ added, ∀ other ∈ files, Apart first last file other) :
    Separated first last (insertFiles first added files) := by
  induction added generalizing files with
  | nil => exact separated
  | cons file _ ih =>
    obtain ⟨head, tail⟩ := pairwise_cons.mp pairwise
    refine ih (separated.insertFile ranges (new_ranges file mem_cons_self)
      (apart file mem_cons_self)) ?_
      (fun other member => new_ranges other (mem_cons_of_mem _ member)) tail ?_
    · intro other member
      rcases mem_insertFile.mp member with rfl | old
      · exact new_ranges other mem_cons_self
      · exact ranges other old
    · intro other member kept present
      rcases mem_insertFile.mp present with rfl | old
      · exact (head other member).symm
      · exact apart other (mem_cons_of_mem _ member) kept old

end

end

end Separated

end Insertions

end LightKV.Levels
