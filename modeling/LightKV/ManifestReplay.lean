import LightKV.ManifestFile
import LightKV.Runs

/-!
# Reading back what was written

A frame is a list of records, and reading it applies them one after another. Between two
writes a manifest stages what happens to its files: with `base` for the manifest written last,
each level holds the files of `base` that were not removed, and behind them the added ones.
That is also what the records of the frame do, removals first, as long as no file is removed
that was added since the last write. So the file always reads as the manifest that was written
last.
-/

namespace LightKV

open ByteReader Runs List Function

namespace ManifestState

/-! ## Records -/

/-- With enough fuel for some levels, more fuel makes no difference. -/
theorem readLevels_of_le (enough : fuel ≤ more)
    (read : readLevels fuel state bytes = (later, some rest)) :
    readLevels more state bytes = (later, some rest) := by
  induction fuel generalizing more state bytes with
  | zero => cases read
  | succ _ ih =>
    obtain ⟨_, rfl⟩ : ∃ less, more = less + 1 := ⟨more - 1, by omega⟩
    simp only [readLevels, readFixed] at read ⊢
    split at read
    · cases read
    rename_i level_read
    rw [if_neg level_read]
    split at read
    · cases read
    rename_i count_read
    rw [if_neg count_read]
    split at read
    · rename_i last
      rw [if_pos last]
      exact read
    rename_i filled
    rw [if_neg filled]
    split at read
    · cases read
    rename_i inside
    rw [if_neg inside]
    unfold andThen at read ⊢
    split at read
    · cases read
    · exact ih (Nat.le_of_succ_le_succ enough) read

theorem local_readLevels_length :
    Local fun (state : ManifestState) bytes => readLevels bytes.length state bytes := by
  intro state bytes later rest read
  obtain ⟨fewer, extended⟩ := local_readLevels _ _ _ _ read
  refine ⟨fewer, fun more => readLevels_of_le ?_ (extended more)⟩
  rw [length_append]
  exact Nat.le_add_right _ _

theorem local_replayTag :
    Local fun (state : ManifestState) bytes => replayRecord state (tag :: bytes) := by
  unfold replayRecord
  by_cases snapshot : tag = tagSnapshot
  · simp only [if_pos snapshot]
    exact (local_readCounters local_readLevels_length).comp
      fun state => { state with files := fun _ => [] }
  intro state
  simp only [if_neg snapshot]
  generalize { state with replayedRecords := state.replayedRecords + 1 } = counted
  by_cases removal : tag = tagDel
  · simp only [if_pos removal]
    exact (local_readFixed fun level => local_readFixed fun fileId => local_done) counted
  by_cases addition : tag = tagAdd
  · simp only [if_neg removal, if_pos addition]
    exact (local_readFixed fun level => local_readFile fun data => local_done) counted
  by_cases counters : tag = tagSeq
  · simp only [if_neg removal, if_neg addition, if_pos counters]
    exact local_readCounters local_done counted
  · simp only [if_neg removal, if_neg addition, if_neg counters]
    exact nofun

/-- A record is read from its own bytes. -/
theorem local_replayRecord : Local replayRecord := by
  intro state bytes later rest read
  cases bytes with
  | nil => cases read
  | cons _ bytes =>
    obtain ⟨fewer, extended⟩ := local_replayTag state bytes later rest read
    exact ⟨Nat.le_succ_of_le fewer, extended⟩

/-- Each record takes at least its tag. -/
theorem progresses_replayRecord : Progresses replayRecord := by
  intro state bytes later rest read
  cases bytes with
  | nil => cases read
  | cons _ bytes => exact Nat.lt_succ_of_le (local_replayTag state bytes later rest read).1

/-- A record behind its tag. -/
theorem consumes_tag {read : ManifestState → Bytes → ManifestState × Option Bytes}
    (reads : ∀ state bytes, replayRecord state (tag :: bytes) = read (change state) bytes)
    (consumes : Consumes read body effect) :
    Consumes replayRecord (tag :: body) (effect ∘ change) where
  whole state rest := by
    rw [cons_append, reads]
    exact consumes.whole (change state) rest
  torn state part beginning different := by
    cases part with
    | nil => rfl
    | cons _ part =>
      obtain ⟨rfl, part_of⟩ := cons_prefix_cons.mp beginning
      rw [reads]
      exact consumes.torn (change state) part part_of fun same => different (same ▸ rfl)

end ManifestState

/-- The values of a file fit the widths they are stored with. -/
structure FileMetaData.Fits (data : FileMetaData) : Prop where
  fileId : data.fileId < 2 ^ 64
  fileSize : data.fileSize < 2 ^ 64
  smallestKey : data.smallestKey.length < 2 ^ 32
  largestKey : data.largestKey.length < 2 ^ 32

instance (data : FileMetaData) : Decidable data.Fits :=
  decidable_of_iff (data.fileId < 2 ^ 64 ∧ data.fileSize < 2 ^ 64 ∧
    data.smallestKey.length < 2 ^ 32 ∧ data.largestKey.length < 2 ^ 32)
    ⟨fun ⟨fileId, fileSize, smallestKey, largestKey⟩ =>
      ⟨fileId, fileSize, smallestKey, largestKey⟩,
    fun fits => ⟨fits.fileId, fits.fileSize, fits.smallestKey, fits.largestKey⟩⟩

/-- A record of a frame. -/
inductive ManifestRecord where
  | counters (lastSeq flushedSeq nextFileId : Nat)
  | remove (level fileId : Nat)
  | add (level : Nat) (data : FileMetaData)
  deriving DecidableEq, Repr

namespace ManifestRecord

/-- The bytes of a record. -/
def encode : ManifestRecord → Bytes
  | .counters lastSeq flushedSeq nextFileId => tagSeq ::
      (encodeFixed 8 lastSeq ++ encodeFixed 8 flushedSeq ++ encodeFixed 8 nextFileId)
  | .remove level fileId => tagDel :: (encodeFixed 4 level ++ encodeFixed 8 fileId)
  | .add level data => tagAdd :: (encodeFixed 4 level ++ data.encode)

/-- What a record does to a manifest. -/
def apply (state : ManifestState) (record : ManifestRecord) : ManifestState :=
  let state := { state with replayedRecords := state.replayedRecords + 1 }
  match record with
  | .counters lastSeq flushedSeq nextFileId => state.setCounters lastSeq flushedSeq nextFileId
  | .remove level fileId => state.removeFileDirect level fileId
  | .add level data => state.pushFile level data

/-- The values of a record fit. -/
def Fits : ManifestRecord → Prop
  | .counters lastSeq flushedSeq nextFileId =>
      lastSeq < 2 ^ 64 ∧ flushedSeq < 2 ^ 64 ∧ nextFileId < 2 ^ 64
  | .remove level fileId => level < numLevels ∧ fileId < 2 ^ 64
  | .add level data => level < numLevels ∧ data.Fits

instance : DecidablePred Fits := by
  intro event
  unfold Fits
  split <;> infer_instance

end ManifestRecord

namespace ManifestState

variable {base : Manifest} {state : ManifestState} (manifest : Manifest) {level : Nat}

variable {next : ManifestState → Bytes → ManifestState × Option Bytes} {encoding : Bytes}
  {effect : ManifestState → ManifestState}

theorem consumes_readCounters (last : lastSeq < 2 ^ 64) (flushed : flushedSeq < 2 ^ 64)
    (following : nextFileId < 2 ^ 64) (steps : Consumes next encoding effect) :
    Consumes (fun state bytes => readCounters state bytes next)
      (encodeFixed 8 lastSeq ++
        (encodeFixed 8 flushedSeq ++ (encodeFixed 8 nextFileId ++ encoding)))
      fun state => effect (state.setCounters lastSeq flushedSeq nextFileId) := by
  have third := consumes_storeFixed 8
    (fun value (state : ManifestState) => { state with nextFileId := value }) following steps
  have second := consumes_storeFixed 8
    (fun value (state : ManifestState) => { state with flushedSeq := value }) flushed third
  exact consumes_storeFixed 8 (fun value state => { state with lastSeq := value }) last second

theorem consumes_readFile (fits : data.Fits)
    {next : FileMetaData → ManifestState → Bytes → ManifestState × Option Bytes}
    (steps : Consumes (next data) encoding effect) :
    Consumes (fun state bytes => readFile state bytes fun data rest => next data state rest)
      (data.encode ++ encoding) effect := by
  simp only [FileMetaData.encode, append_assoc]
  exact consumes_readFixed fits.fileId (consumes_readFixed fits.fileSize
    (consumes_readBytes fits.smallestKey (consumes_readBytes fits.largestKey steps)))

/-- A record is read as it was written. -/
theorem consumes_record {record : ManifestRecord} (fits : record.Fits) :
    Consumes replayRecord record.encode fun state => record.apply state := by
  cases record with
  | counters lastSeq flushedSeq nextFileId =>
    have body := consumes_readCounters fits.1 fits.2.1 fits.2.2 (consumes_done id)
    exact consumes_tag (fun _ _ => rfl) body
  | remove level fileId =>
    have body : Consumes (fun (state : ManifestState) bytes =>
        readFixed 4 state bytes fun level bytes => readFixed 8 state bytes fun fileId bytes =>
          (if level < numLevels then state.removeFileDirect level fileId else state, some bytes))
        (encodeFixed 4 level ++ (encodeFixed 8 fileId ++ []))
        fun state => if level < numLevels then state.removeFileDirect level fileId else state :=
      consumes_readFixed (by have := fits.1; unfold numLevels at this; omega)
        (consumes_readFixed (by have := fits.2; omega) (consumes_done _))
    simp only [if_pos fits.1] at body
    exact consumes_tag (fun _ _ => rfl) body
  | add level data =>
    have body : Consumes (fun (state : ManifestState) bytes =>
        readFixed 4 state bytes fun level bytes => readFile state bytes fun data bytes =>
          (if level < numLevels then state.pushFile level data else state, some bytes))
        (encodeFixed 4 level ++ (data.encode ++ []))
        fun state => if level < numLevels then state.pushFile level data else state :=
      consumes_readFixed (by have := fits.1; unfold numLevels at this; omega)
        (consumes_readFile fits.2 (consumes_done _))
    rw [append_nil] at body
    simp only [if_pos fits.1] at body
    exact consumes_tag (fun _ _ => rfl) body

/-! ## Frames -/

/-- The records of a frame. -/
def frameRecords (state : ManifestState) : List ManifestRecord :=
  .counters state.lastSeq state.flushedSeq state.nextFileId ::
    (state.pendingRemovals.map (fun removal => .remove removal.1 removal.2) ++
      (List.range numLevels).flatMap fun level => (state.pendingAdds level).map (.add level))

/-- `AppendChanges` writes the pending changes as records. -/
theorem frame_eq : state.frame = state.frameRecords.flatMap ManifestRecord.encode := by
  simp [frame, frameRecords, ManifestRecord.encode, Manifest.encodeCounters, flatMap_assoc,
    flatMap_map]

/-- The counters of a manifest. -/
def counters (state : Manifest) : Nat × Nat × Nat :=
  (state.lastSeq, state.flushedSeq, state.nextFileId)

/-- Two manifests have the same files. -/
def SameFiles (first second : Manifest) : Prop :=
  ∀ level < numLevels, first.files level = second.files level

/-- Files of some levels that are added one after another. -/
theorem toManifest_foldl_add {add : ManifestState → Nat → FileMetaData → ManifestState}
    {files : Nat → List FileMetaData} {levels : List Nat}
    (adds : ∀ state level data,
      state.toManifest.addFile level data = (add state level data).toManifest)
    (inner : ∀ level ∈ levels, level < numLevels) (distinct : levels.Nodup)
    (state : ManifestState) :
    (levels.foldl (fun state level => (files level).foldl (add · level) state) state).toManifest =
      { state.toManifest with
        files := fun level =>
          if level ∈ levels then state.files level ++ files level else state.files level } := by
  rw [← Manifest.foldl_addFiles_eq inner distinct]
  symm
  refine foldl_hom toManifest fun state level => ?_
  exact foldl_hom toManifest fun state data => adds state level data

/-- What the records of a frame come to. -/
theorem toManifest_frameRecords {state start : ManifestState}
    (inner : ∀ removal ∈ state.pendingRemovals, removal.1 < numLevels) :
    (state.frameRecords.foldl ManifestRecord.apply start).toManifest =
      { state.toManifest with
        files := fun level =>
          let kept := (start.files level).filter fun data =>
            decide ((level, data.fileId) ∉ state.pendingRemovals)
          if level ∈ range numLevels then kept ++ state.pendingAdds level else kept } := by
  have removed : ∀ start : ManifestState,
      state.pendingRemovals.foldl (fun manifest removal => manifest.removeFile removal.1 removal.2)
        start.toManifest = (state.pendingRemovals.foldl (fun start removal =>
          ManifestRecord.apply start (.remove removal.1 removal.2)) start).toManifest :=
    fun _ => foldl_hom toManifest fun _ _ => rfl
  rw [frameRecords, foldl_cons, foldl_append, foldl_flatMap]
  simp only [foldl_map]
  rw [toManifest_foldl_add (fun _ _ _ => rfl) (fun _ => mem_range.mp) nodup_range, ← removed,
    Manifest.foldl_removeFile_eq inner]
  rfl

/-! ## Snapshots -/

/-- The files of a level, pushed one after another. -/
def pushFiles (state : ManifestState) (level : Nat) (files : List FileMetaData) : ManifestState :=
  files.foldl (fun state data => state.pushFile level data) state

theorem consumes_readFiles (level : Nat) (fits : ∀ data ∈ files, data.Fits) :
    Consumes (readFiles level files.length) (files.flatMap FileMetaData.encode)
      fun state => state.pushFiles level files := by
  induction files with
  | nil => exact consumes_done id
  | cons data files ih =>
    have rest := ih fun other member => fits other (mem_cons_of_mem _ member)
    exact consumes_readFile (fits data mem_cons_self)
      rest.comp

/-- The levels of a snapshot, pushed one after another. -/
def pushLevels (state : ManifestState) (manifest : Manifest) (levels : List Nat) : ManifestState :=
  levels.foldl (fun state level => state.pushFiles level (manifest.files level)) state

/-- The levels of a snapshot and the end behind them. -/
theorem readLevels_encode (inside : ∀ level ∈ levels, level < numLevels)
    (fits : ∀ level ∈ levels, ∀ data ∈ manifest.files level, data.Fits)
    (counted : ∀ level ∈ levels, (manifest.files level).length < 2 ^ 32)
    (enough : levels.length < fuel) (state : ManifestState) (rest : Bytes) :
    readLevels fuel state (levels.flatMap manifest.encodeLevel ++
        (encodeFixed 4 0 ++ (encodeFixed 4 0 ++ rest))) =
      (state.pushLevels manifest levels, some rest) := by
  induction levels generalizing fuel state with
  | nil =>
    obtain ⟨_, rfl⟩ : ∃ less, fuel = less + 1 := ⟨fuel - 1, by simp at enough; omega⟩
    rw [flatMap_nil, nil_append, readLevels, readFixed_encodeFixed (by decide),
      readFixed_encodeFixed (by decide)]
    rfl
  | cons level levels ih =>
    have tail : ∀ {fuel : Nat}, levels.length < fuel → ∀ state : ManifestState, _ :=
      fun enough => ih (fun other member => inside other (mem_cons_of_mem _ member))
        (fun other member => fits other (mem_cons_of_mem _ member))
        (fun other member => counted other (mem_cons_of_mem _ member)) enough
    rw [flatMap_cons, append_assoc]
    by_cases empty : (manifest.files level).isEmpty = true
    · have nothing : state.pushFiles level (manifest.files level) = state := by
        rw [isEmpty_iff.mp empty]
        rfl
      rw [Manifest.encodeLevel, if_pos empty, List.nil_append, tail (Nat.lt_of_succ_lt enough),
        pushLevels, pushLevels, foldl_cons, nothing]
    obtain ⟨_, rfl⟩ : ∃ less, fuel = less + 1 := ⟨fuel - 1, by omega⟩
    have own : level < numLevels := inside level mem_cons_self
    have small : level < 256 ^ 4 := lt_of_lt_of_le own (by decide)
    have few := counted level mem_cons_self
    have some_file : (manifest.files level).length ≠ 0 := by
      rw [ne_eq, List.length_eq_zero_iff, ← List.isEmpty_iff]
      exact empty
    rw [Manifest.encodeLevel, if_neg empty, append_assoc, append_assoc, readLevels,
      readFixed_encodeFixed small, readFixed_encodeFixed (by omega), if_neg some_file,
      if_neg (Nat.not_le_of_lt own), andThen,
      (consumes_readFiles level (fits level mem_cons_self)).whole]
    exact tail (Nat.lt_of_succ_lt_succ enough) _

/-- The counters fit, and so do the files. -/
structure Storable (manifest : Manifest) : Prop where
  lastSeq : manifest.lastSeq < 2 ^ 64
  flushedSeq : manifest.flushedSeq < 2 ^ 64
  nextFileId : manifest.nextFileId < 2 ^ 64
  files : ∀ level < numLevels, ∀ data ∈ manifest.files level, data.Fits

/-- The log of a snapshot. -/
def snapshotLog (manifest : Manifest) : Bytes :=
  tagSnapshot :: (manifest.encodeCounters ++ ((List.range numLevels).flatMap manifest.encodeLevel ++
    (encodeFixed 4 0 ++ encodeFixed 4 0)))

/-- `WriteToFile` writes the whole state as one log. -/
theorem snapshot_eq : manifest.snapshot = appendMagic ++ snapshotLog manifest := by
  simp [Manifest.snapshot, snapshotLog]

/-- A snapshot is read as it was written. -/
theorem readAll_snapshot {manifest : Manifest} (storable : Storable manifest)
    (counted : ∀ level < numLevels, (manifest.files level).length < 2 ^ 32)
    (state : ManifestState) :
    ∃ result, readAll replayRecord state (snapshotLog manifest) = (true, result) ∧
      SameFiles result.toManifest manifest ∧ counters result.toManifest = counters manifest := by
  have levels : ∀ state : ManifestState, readLevels
      ((range numLevels).flatMap manifest.encodeLevel ++
        (encodeFixed 4 0 ++ (encodeFixed 4 0 ++ []))).length state
      ((range numLevels).flatMap manifest.encodeLevel ++
        (encodeFixed 4 0 ++ (encodeFixed 4 0 ++ []))) =
      (state.pushLevels manifest (range numLevels), some []) := by
    intro state
    refine readLevels_encode manifest (fun _ member => mem_range.mp member)
      (fun level member => storable.files level (mem_range.mp member))
      (fun level member => counted level (mem_range.mp member)) ?_ state []
    simp only [length_append, length_encodeFixed, length_range, numLevels]
    omega
  have read : replayRecord state (snapshotLog manifest) =
      ((({ state with files := fun _ => [] } : ManifestState).setCounters manifest.lastSeq
        manifest.flushedSeq manifest.nextFileId).pushLevels manifest (range numLevels),
          some []) := by
    have last : manifest.lastSeq < 256 ^ 8 := storable.lastSeq
    have flushed : manifest.flushedSeq < 256 ^ 8 := storable.flushedSeq
    have following : manifest.nextFileId < 256 ^ 8 := storable.nextFileId
    rw [snapshotLog, replayRecord, readCounters, Manifest.encodeCounters,
      append_assoc, append_assoc, readFixed_encodeFixed last,
      readFixed_encodeFixed flushed, readFixed_encodeFixed following]
    exact levels _
  refine ⟨_, (readAll_of_read progresses_replayRecord read).trans readAll_nil, ?_⟩
  unfold pushLevels pushFiles
  rw [toManifest_foldl_add (fun _ _ _ => rfl) (fun _ => mem_range.mp) nodup_range]
  exact ⟨fun _ inside => if_pos (mem_range.mpr inside), rfl⟩

/-! ## What is staged -/

/-- The manifest is the one written last, with what is staged since then. -/
structure StagedOver (base : Manifest) (state : ManifestState) : Prop where
  storable : Storable state.toManifest
  files : ∀ level < numLevels, state.files level =
    ((base.files level).filter fun data =>
      decide ((level, data.fileId) ∉ state.pendingRemovals)) ++ state.pendingAdds level
  removals : ∀ removal ∈ state.pendingRemovals, removal.1 < numLevels ∧ removal.2 < 2 ^ 64
  additions : ∀ level, ∀ data ∈ state.pendingAdds level, data.Fits

theorem stagedOver_self (storable : Storable state.toManifest)
    (removals : state.pendingRemovals = []) (additions : ∀ level, state.pendingAdds level = []) :
    StagedOver state.toManifest state where
  storable := storable
  files level _ := by simp [removals, additions level]
  removals := by simp [removals]
  additions level := by simp [additions level]

theorem addFile_of_inside (inside : level < numLevels) :
    state.addFile level data =
      { state with
        files := update state.files level (state.files level ++ [data])
        pendingAdds :=
          update state.pendingAdds level (state.pendingAdds level ++ [data]) } := by
  have within := Nat.not_le_of_lt inside
  simp only [ManifestState.addFile, Manifest.addFile, if_neg within]

theorem removeFile_of_inside (inside : level < numLevels) :
    state.removeFile level fileId =
      { state with
        files := update state.files level
          ((state.files level).filter fun data => decide (data.fileId ≠ fileId))
        pendingRemovals := state.pendingRemovals ++ [(level, fileId)] } := by
  have within := Nat.not_le_of_lt inside
  simp only [ManifestState.removeFile, Manifest.removeFile, if_neg within]

section

variable (staged : StagedOver base state)
include staged

/-- An added file waits in `pending_adds_`. -/
theorem StagedOver.addFile (fits : level < numLevels → data.Fits) :
    StagedOver base (state.addFile level data) := by
  rcases lt_or_ge level numLevels with inside | outside
  · rw [addFile_of_inside inside]
    refine ⟨⟨staged.storable.lastSeq, staged.storable.flushedSeq, staged.storable.nextFileId, ?_⟩,
      ?_, staged.removals, ?_⟩
    · intro other bound entry member
      rcases mem_update_append.mp member with old | ⟨_, new⟩
      · exact staged.storable.files other bound entry old
      · exact mem_singleton.mp new ▸ fits inside
    · intro other bound
      dsimp only
      by_cases same : other = level
      · subst same
        rw [update_self, update_self, staged.files other bound, append_assoc]
      · rw [update_of_ne same, update_of_ne same]
        exact staged.files other bound
    · intro other entry member
      rcases mem_update_append.mp member with old | ⟨_, new⟩
      · exact staged.additions other entry old
      · exact mem_singleton.mp new ▸ fits inside
  · rw [ManifestState.addFile, if_pos outside]
    exact staged

/-- A removed file was not added since the last write. -/
theorem StagedOver.removeFile (allowed : level < numLevels → fileId < 2 ^ 64 ∧ ∀ data ∈
      state.pendingAdds level, data.fileId ≠ fileId) :
    StagedOver base (state.removeFile level fileId) := by
  rcases lt_or_ge level numLevels with inside | outside
  · obtain ⟨fits, kept⟩ := allowed inside
    rw [removeFile_of_inside inside]
    refine ⟨⟨staged.storable.lastSeq, staged.storable.flushedSeq, staged.storable.nextFileId, ?_⟩,
      ?_, ?_, staged.additions⟩
    · intro other bound entry member
      dsimp only at member
      by_cases same : other = level
      · subst same
        rw [update_self] at member
        exact staged.storable.files other bound entry (mem_filter.mp member).1
      · rw [update_of_ne same] at member
        exact staged.storable.files other bound entry member
    · intro other bound
      dsimp only
      by_cases same : other = level
      · -- The added files are not removed, and the others are left out at once.
        subst same
        have unremoved : (state.pendingAdds other).filter
            (fun data => decide (data.fileId ≠ fileId)) = state.pendingAdds other :=
          filter_eq_self.mpr fun data member => by simpa using kept data member
        rw [staged.files other bound, filter_append, unremoved]
        simp [and_comm]
      · rw [update_of_ne same, staged.files other bound]
        simp [same]
    · intro removal member
      rcases mem_append.mp member with old | new
      · exact staged.removals removal old
      · rw [mem_singleton.mp new]
        exact ⟨inside, fits⟩
  · rw [ManifestState.removeFile, if_pos outside]
    exact staged

theorem StagedOver.setCounters (last : lastSeq < 2 ^ 64) (flushed : flushedSeq < 2 ^ 64)
    (following : nextFileId < 2 ^ 64) :
    StagedOver base (state.setCounters lastSeq flushedSeq nextFileId) where
  storable := ⟨last, flushed, following, staged.storable.files⟩
  files := staged.files
  removals := staged.removals
  additions := staged.additions

theorem StagedOver.fits_frameRecords : ∀ record ∈ state.frameRecords, record.Fits := by
  intro _ member
  rcases mem_cons.mp member with rfl | file
  · exact ⟨staged.storable.lastSeq, staged.storable.flushedSeq, staged.storable.nextFileId⟩
  rcases mem_append.mp file with removal | addition
  · obtain ⟨removed, listed, rfl⟩ := mem_map.mp removal
    exact staged.removals removed listed
  · obtain ⟨level, inside, added⟩ := mem_flatMap.mp addition
    obtain ⟨data, listed, rfl⟩ := mem_map.mp added
    exact ⟨mem_range.mp inside, staged.additions level data listed⟩

/-- A frame is replayed to the manifest that wrote it. -/
theorem StagedOver.replay_frame (same : SameFiles start.toManifest base) :
    ∃ result, readAll replayRecord start state.frame = (true, result) ∧
      SameFiles result.toManifest state.toManifest ∧
        counters result.toManifest = counters state.toManifest := by
  refine ⟨state.frameRecords.foldl ManifestRecord.apply start, ?_, ?_⟩
  · have read := readAll_records progresses_replayRecord
      (fun record member => consumes_record (staged.fits_frameRecords record member)) start []
    rw [← frame_eq, append_nil] at read
    exact read.trans readAll_nil
  · rw [toManifest_frameRecords fun removal listed => (staged.removals removal listed).1]
    refine ⟨fun level inside => ?_, rfl⟩
    rw [staged.files level inside, ← same level inside]
    exact if_pos (mem_range.mpr inside)

end

/-! ## Sessions -/

/-- The manifest into which a file is read. -/
def opening (reader : ManifestState) : ManifestState :=
  { reader with files := fun _ => [], replayedRecords := 0 }

/-- A file in the current format is replayed. -/
theorem readFromFile_log :
    readFromFile reader (some (appendMagic ++ log)) =
      if (readAll replayRecord reader.opening log).1 then
        (.ok, { (readAll replayRecord reader.opening log).2 with
          appendedRecords := (readAll replayRecord reader.opening log).2.replayedRecords })
      else (.corruption "truncated MANIFEST", (readAll replayRecord reader.opening log).2) := by
  have behind : (appendMagic ++ log).drop 4 = log := rfl
  have same : replayLog { reader with files := fun _ => [] } log =
      readAll replayRecord reader.opening log := rfl
  rw [readFromFile, behind, same]
  generalize readAll replayRecord reader.opening log = outcome
  obtain ⟨_ | _, _⟩ := outcome <;> rfl

/-- Behind the magic, `ReadFromFile` is the replay. -/
theorem readFromFile_of_replayed
    (replayed : readAll replayRecord reader.opening log = (true, result)) :
    readFromFile reader (some (appendMagic ++ log)) =
      (.ok, { result with appendedRecords := result.replayedRecords }) := by
  rw [readFromFile_log, replayed]
  rfl

/-- The file reads as the files of a manifest; one that is missing or empty as none. -/
def Holds (reader : ManifestState) (file : Option Bytes) (base : Manifest) : Prop :=
  (file.getD [] = [] ∧ ∀ level < numLevels, base.files level = []) ∨
    ∃ log result, file = some (appendMagic ++ log) ∧
      readAll replayRecord reader.opening log = (true, result) ∧ SameFiles result.toManifest base

/-- The bytes in front of a frame. -/
theorem Holds.appendBase (holds : Holds reader file base) :
    ∃ log result, ManifestState.appendBase file = appendMagic ++ log ∧
      readAll replayRecord reader.opening log = (true, result) ∧
        SameFiles result.toManifest base := by
  rcases holds with ⟨empty, none_held⟩ | ⟨log, result, rfl, replayed, same⟩
  · refine ⟨[], reader.opening, ?_, rfl, fun level inside => (none_held level inside).symm⟩
    cases file with
    | none => rfl
    | some content =>
      rw [show content = [] from empty]
      rfl
  · exact ⟨log, result, rfl, replayed, same⟩

/-- The file reads as a manifest, with its counters. -/
structure Restores (reader : ManifestState) (file : Option Bytes) (saved : Manifest) : Prop where
  status : (readFromFile reader file).1 = .ok
  files : SameFiles (readFromFile reader file).2.toManifest saved
  counters : counters (readFromFile reader file).2.toManifest = counters saved

theorem restores_of_replayed (replayed : readAll replayRecord reader.opening log = (true, result))
    (files : SameFiles result.toManifest saved)
    (same : counters result.toManifest = counters saved) :
    Restores reader (some (appendMagic ++ log)) saved := by
  have read := readFromFile_of_replayed replayed
  exact ⟨by rw [read], by rw [read]; exact files, by rw [read]; exact same⟩

/-- A manifest with its file, and the manifest as it was when the file was last written. -/
structure Session where
  manifest : ManifestState
  file : Option Bytes
  saved : Option Manifest

/-- What is done with a manifest. -/
inductive Edit where
  | addFile (level : Nat) (data : FileMetaData)
  | removeFile (level fileId : Nat)
  | setCounters (lastSeq flushedSeq nextFileId : Nat)
  | appendChanges
  | writeToFile
  deriving DecidableEq, Repr

namespace Session

/-- What a write leaves. -/
def written (session : Session) (outcome : Status × ManifestState × Option Bytes) : Session :=
  ⟨outcome.2.1, outcome.2.2, some session.manifest.toManifest⟩

/-- One edit; writes succeed. -/
def step (session : Session) : Edit → Session
  | .addFile level data => { session with manifest := session.manifest.addFile level data }
  | .removeFile level fileId =>
    { session with manifest := session.manifest.removeFile level fileId }
  | .setCounters lastSeq flushedSeq nextFileId =>
      { session with manifest := session.manifest.setCounters lastSeq flushedSeq nextFileId }
  | .appendChanges => session.written (session.manifest.appendChanges none session.file)
  | .writeToFile => session.written (session.manifest.writeToFile none session.file)

/-- Values fit their widths, and no file is removed that was added since the last write. -/
def Admits (session : Session) : Edit → Prop
  | .addFile level data => level < numLevels → data.Fits
  | .removeFile level fileId => level < numLevels →
      fileId < 2 ^ 64 ∧ ∀ data ∈ session.manifest.pendingAdds level, data.fileId ≠ fileId
  | .setCounters lastSeq flushedSeq nextFileId =>
      lastSeq < 2 ^ 64 ∧ flushedSeq < 2 ^ 64 ∧ nextFileId < 2 ^ 64
  | .appendChanges | .writeToFile =>
      ∀ level < numLevels, (session.manifest.files level).length < 2 ^ 32

instance (session : Session) : DecidablePred session.Admits := by
  intro event
  unfold Admits
  split <;> infer_instance

/-- The file holds what was written last, and the manifest what is staged over it. -/
structure Synced (reader : ManifestState) (session : Session) : Prop where
  staged : ∃ base, StagedOver base session.manifest ∧ Holds reader session.file base
  saved : ∀ saved, session.saved = some saved → Restores reader session.file saved

variable {reader : ManifestState} {session : Session}

theorem Synced.keepFile (synced : Synced reader session) {manifest : ManifestState}
    (staged : ∀ base, StagedOver base session.manifest → StagedOver base manifest) :
    Synced reader { session with manifest := manifest } := by
  obtain ⟨base, before, holds⟩ := synced.staged
  exact ⟨⟨base, staged base before, holds⟩, synced.saved⟩

/-- A write with nothing staged behind it. -/
theorem synced_written (staged : StagedOver base session.manifest)
    (same : outcome.2.1.toManifest = session.manifest.toManifest)
    (removals : outcome.2.1.pendingRemovals = [])
    (additions : ∀ level, outcome.2.1.pendingAdds level = [])
    (file : outcome.2.2 = some (appendMagic ++ log))
    (replayed : readAll replayRecord reader.opening log = (true, result))
    (files : SameFiles result.toManifest session.manifest.toManifest)
    (counters_eq : counters result.toManifest = counters session.manifest.toManifest) :
    Synced reader (session.written outcome) where
  staged := by
    refine ⟨outcome.2.1.toManifest, stagedOver_self (same ▸ staged.storable) removals additions,
      .inr ⟨log, result, file, replayed, ?_⟩⟩
    rw [same]
    exact files
  saved manifest written := by
    obtain rfl := Option.some.inj written
    change Restores reader outcome.2.2 _
    rw [file]
    exact restores_of_replayed replayed files counters_eq

section

variable (synced : Synced reader session)
  (counted : ∀ level < numLevels, (session.manifest.files level).length < 2 ^ 32)
include synced counted

/-- A rewrite holds the state. -/
theorem Synced.writeToFile :
    Synced reader (session.written (session.manifest.writeToFile none session.file)) := by
  obtain ⟨_, staged, _⟩ := synced.staged
  obtain ⟨_, replayed, files, counters_eq⟩ :=
    readAll_snapshot staged.storable counted reader.opening
  exact synced_written staged rfl rfl (fun _ => rfl)
    (congrArg some (snapshot_eq session.manifest.toManifest)) replayed files counters_eq

/-- A frame brings the file up to the state. -/
theorem Synced.appendChanges :
    Synced reader (session.written (session.manifest.appendChanges none session.file)) := by
  unfold ManifestState.appendChanges
  split
  · exact synced.writeToFile counted
  obtain ⟨_, staged, holds⟩ := synced.staged
  obtain ⟨_, _, base_eq, begun, same⟩ := holds.appendBase
  obtain ⟨_, replayed, files, counters_eq⟩ := staged.replay_frame same
  have whole := readAll_append local_replayRecord progresses_replayRecord begun
    session.manifest.frame
  refine synced_written staged rfl rfl (fun _ => rfl) ?_ (whole.trans replayed) files counters_eq
  rw [base_eq, append_assoc]

end

/-- Each edit keeps what the file will be read as. -/
theorem Synced.step (synced : Synced reader session) (admits : session.Admits edit) :
    Synced reader (session.step edit) := by
  cases edit with
  | addFile _ _ => exact synced.keepFile fun _ staged => staged.addFile admits
  | removeFile _ _ => exact synced.keepFile fun _ staged => staged.removeFile admits
  | setCounters _ _ _ =>
    exact synced.keepFile fun _ staged => staged.setCounters admits.1 admits.2.1 admits.2.2
  | appendChanges => exact synced.appendChanges admits
  | writeToFile => exact synced.writeToFile admits

/-- A manifest with nothing staged, and the file it was read from or is to be written to. -/
structure Opened (reader manifest : ManifestState) (file : Option Bytes) : Prop where
  storable : Storable manifest.toManifest
  removals : manifest.pendingRemovals = []
  additions : ∀ level, manifest.pendingAdds level = []
  holds : Holds reader file manifest.toManifest

theorem opened_new : Opened reader .new none where
  storable := ⟨by decide, by decide, by decide, nofun⟩
  removals := rfl
  additions _ := rfl
  holds := .inl ⟨rfl, fun _ _ => rfl⟩

/-- After any edits of a manifest, the file reads as the manifest was when it was last written:
the same files in the same order at every level, and the same counters. -/
theorem replay_reproduces {reader manifest : ManifestState} {file : Option Bytes}
    (opened : Opened reader manifest file) (edits : List Edit)
    (admitted : Meets step Admits ⟨manifest, file, none⟩ edits) (saved : Manifest)
    (last : (run step ⟨manifest, file, none⟩ edits).saved = some saved) :
    let found := readFromFile reader (run step ⟨manifest, file, none⟩ edits).file
    found.1 = .ok ∧ (∀ level < numLevels, found.2.files level = saved.files level) ∧
      found.2.lastSeq = saved.lastSeq ∧ found.2.flushedSeq = saved.flushedSeq ∧
        found.2.nextFileId = saved.nextFileId := by
  have synced : Synced reader (run step ⟨manifest, file, none⟩ edits) := by
    refine admitted.invariant ⟨⟨manifest.toManifest, ?_, opened.holds⟩, nofun⟩ ?_
    · exact stagedOver_self opened.storable opened.removals opened.additions
    · intro session edit before admits
      exact before.step admits
  obtain ⟨status, files, same⟩ := synced.saved saved last
  obtain ⟨lastSeq, others⟩ := Prod.mk.inj same
  exact ⟨status, files, lastSeq, (Prod.mk.inj others).1, (Prod.mk.inj others).2⟩

/-- Three files, of which two are later merged into one. -/
def threeFiles : List Edit :=
  [.addFile 0 ⟨1, [97], [98, 44, 10], 100⟩, .setCounters 2 2 2, .writeToFile,
    .addFile 0 ⟨2, [], [93], 200⟩, .setCounters 4 4 3, .appendChanges,
    .removeFile 0 1, .removeFile 0 2, .addFile 1 ⟨3, [], [98, 44, 10], 300⟩, .setCounters 4 4 4,
    .appendChanges, .addFile 0 ⟨4, [99], [99], 1⟩]

theorem replay_reproduces_threeFiles :
    ∃ saved, (run step ⟨.new, none, none⟩ threeFiles).saved = some saved ∧
      saved.files 1 = [⟨3, [], [98, 44, 10], 300⟩] ∧
        (readFromFile .new (run step ⟨.new, none, none⟩ threeFiles).file).2.files 1 =
          saved.files 1 :=
  ⟨_, rfl, rfl, (replay_reproduces (opened_new) threeFiles (by decide +kernel) _ rfl).2.1 1
    (by decide)⟩

end Session

end ManifestState

end LightKV
