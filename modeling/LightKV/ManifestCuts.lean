import LightKV.ManifestReplay

/-!
# Frames that end early

A crash may leave only the beginning of a frame. The frame has no length and no checksum: a
beginning that ends inside a record is refused, and one that ends between two records is read
as far as it goes. So the file set of such a manifest is the one before the update if the
records that are left change no file, and the one behind the update if the missing ones would
change none.

A file in the text format has no records. There the bytes of the frame are read as lines, and
the files are the same as before if none of these lines says anything.
-/

namespace LightKV

open List hiding count
open ByteReader ManifestRecord

/-! ## What records do to the files of a level -/

namespace ManifestRecord

/-- What a record does to the files of a level. -/
def onLevel (level : Nat) (files : List FileMetaData) : ManifestRecord → List FileMetaData
  | .counters _ _ _ => files
  | .remove other fileId =>
      if other = level then files.filter fun data => decide (data.fileId ≠ fileId) else files
  | .add other data => if other = level then files ++ [data] else files

theorem files_foldl_apply {records : List ManifestRecord} {state : ManifestState}
    (inside : level < numLevels) :
    (records.foldl apply state).files level =
      records.foldl (onLevel level) (state.files level) := by
  induction records generalizing state with
  | nil => rfl
  | cons record _ ih =>
    rw [foldl_cons, foldl_cons, ih]
    congr 1
    cases record with
    | counters _ _ _ => rfl
    | remove other _ =>
      simp only [apply, ManifestState.removeFileDirect, Manifest.removeFile, onLevel]
      split <;> grind [Function.update]
    | add other _ =>
      simp only [apply, ManifestState.pushFile, Manifest.addFile, onLevel]
      split <;> grind [Function.update]

end ManifestRecord

/-- Two families of files are the same sets, level by level. -/
def SameSets (first second : Nat → List FileMetaData) : Prop :=
  ∀ level < numLevels, first level ⊆ second level ∧ second level ⊆ first level

instance : Decidable (SameSets first second) :=
  inferInstanceAs (Decidable (∀ level < numLevels, _ ∧ _))

theorem sameSets_congr (left : ∀ level < numLevels, first level = first' level)
    (right : ∀ level < numLevels, second level = second' level) :
    SameSets first second ↔ SameSets first' second' := by
  refine forall_congr' fun level => forall_congr' fun inside => ?_
  rw [left level inside, right level inside]

namespace ManifestState

variable {reader state : ManifestState} {content : Bytes} {cut : Nat}

/-! ## The current format -/

/-- The file is in the current format, or still empty. -/
def IsCurrent (content : Bytes) : Prop :=
  content = [] ∨ appendMagic.isPrefixOf content = true
  deriving Decidable

/-- A file that is read without error has been replayed to its end. -/
theorem replayed_of_valid (current : IsCurrent content)
    (valid : (readFromFile reader (some content)).1 = .ok) :
    ∃ log result, appendBase (some content) = appendMagic ++ log ∧
      readAll replayRecord reader.opening log = (true, result) ∧
        result.files = (readFromFile reader (some content)).2.files := by
  rcases current with rfl | begins
  · exact ⟨[], reader.opening, rfl, rfl, rfl⟩
  obtain ⟨log, rfl⟩ := isPrefixOf_iff_prefix.mp begins
  rw [readFromFile_log] at valid ⊢
  cases replayed : readAll replayRecord reader.opening log with
  | mk finished result =>
    rw [replayed] at valid
    cases finished with
    | true => exact ⟨log, result, rfl, replayed, rfl⟩
    | false => cases valid

/-- The records of a frame, in front of a place and behind it. Either the first ones leave the files
of each level the same set, or the others would. -/
def LeavesSets (before : Nat → List FileMetaData) (front back : List ManifestRecord) : Prop :=
  let between := fun level => front.foldl (onLevel level) (before level)
  SameSets between before ∨
    SameSets between fun level => back.foldl (onLevel level) (between level)
  deriving Decidable

/-- The cut is behind some records of the frame, or in front of all, and one of the two parts leaves
the sets. -/
def CutBetween (before : Nat → List FileMetaData) (state : ManifestState) (cut : Nat) : Prop :=
  ∃ count < state.frameRecords.length + 1,
    state.frame.take cut = (state.frameRecords.take count).flatMap encode ∧
      LeavesSets before (state.frameRecords.take count) (state.frameRecords.drop count)

instance : Decidable (CutBetween before state cut) :=
  inferInstanceAs (Decidable (∃ count < state.frameRecords.length + 1, _ ∧ _))

/-- A beginning of records ends behind one of them, or inside the next. -/
theorem take_flatMap_cases (encode : α → Bytes) (records : List α) (cut : Nat) :
    ∃ count ≤ records.length,
      (records.flatMap encode).take cut = (records.take count).flatMap encode ∨
        ∃ (inside : count < records.length) (part : Bytes), part <+: encode records[count] ∧
          part ≠ encode records[count] ∧ part ≠ [] ∧
          (records.flatMap encode).take cut = (records.take count).flatMap encode ++ part := by
  induction records generalizing cut with
  | nil => exact ⟨0, le_refl _, .inl (by simp)⟩
  | cons record rest ih =>
    rcases lt_or_ge cut (encode record).length with short | long
    · refine ⟨0, Nat.zero_le _, ?_⟩
      rw [flatMap_cons, take_append_of_le_length (le_of_lt short)]
      cases cut with
      | zero => exact .inl rfl
      | succ cut =>
        refine .inr ⟨Nat.succ_pos _, (encode record).take (cut + 1), take_prefix _ _, ?_, ?_, rfl⟩
        · intro whole
          have sizes := congrArg length whole
          rw [length_take, getElem_cons_zero] at sizes
          omega
        · intro empty
          have sizes := congrArg length empty
          rw [length_take, length_nil] at sizes
          omega
    · obtain ⟨count, bound, found⟩ := ih (cut - (encode record).length)
      refine ⟨count + 1, Nat.succ_le_succ bound, ?_⟩
      rw [flatMap_cons, take_append, take_of_length_le long, take_succ_cons, flatMap_cons]
      refine found.imp (congrArg _) ?_
      rintro ⟨inside, part, beginning, different, filled, same⟩
      exact ⟨Nat.succ_lt_succ inside, part, beginning, different, filled, by
        rw [same, append_assoc]⟩

/-- Whole records behind a file in the current format. -/
theorem readFromFile_records {log : Bytes} {result : ManifestState}
    (replayed : readAll replayRecord reader.opening log = (true, result))
    {records : List ManifestRecord} (fits : ∀ record ∈ records, record.Fits) :
    (readFromFile reader
        (some (appendMagic ++ log ++ records.flatMap encode))).1 = .ok ∧
      (readFromFile reader
        (some (appendMagic ++ log ++ records.flatMap encode))).2.files =
          (records.foldl ManifestRecord.apply result).files := by
  have whole := readAll_append local_replayRecord progresses_replayRecord replayed
    (records.flatMap encode)
  have read := readAll_records progresses_replayRecord
    (fun record member => consumes_record (fits record member)) result []
  rw [append_nil] at read
  rw [append_assoc, readFromFile_of_replayed (whole.trans read)]
  exact ⟨rfl, rfl⟩

/-! ## The text format -/

end ManifestState

namespace ManifestText

/-- A line that the text format reads. -/
def speaks (line : Bytes) : Bool :=
  decide (line = ruler) || formatVersionLabel.isPrefixOf line || lastSeqLabel.isPrefixOf line ||
    flushedSeqLabel.isPrefixOf line || nextFileIdLabel.isPrefixOf line || isLevelHeader line ||
      fileLineLabel.isPrefixOf line

theorem readLines_filter :
    readLines state inFiles level (lines.filter speaks) = readLines state inFiles level lines := by
  induction lines generalizing state inFiles level with
  | nil => rfl
  | cons line _ ih =>
    rw [filter_cons]
    by_cases speaking : speaks line = true
    · rw [if_pos speaking]
      simp only [readLines, ih]
    · rw [if_neg speaking, ih]
      simp only [speaks, Bool.or_eq_true, decide_eq_true_eq, not_or] at speaking
      obtain ⟨⟨⟨⟨⟨⟨ruled, version⟩, last⟩, flushed⟩, following⟩, header⟩, file⟩ := speaking
      simp [readLines, ruled, version, last, flushed, following, header, file]

end ManifestText

namespace ManifestState

variable {reader state : ManifestState} {content : Bytes} {cut : Nat}

/-- The beginning of the frame neither adds nor changes a line that the text format reads. -/
def CutUnread (content part : Bytes) : Prop :=
  (ManifestText.splitString 10 [] (content ++ part)).filter ManifestText.speaks =
    (ManifestText.splitString 10 [] content).filter ManifestText.speaks
  deriving Decidable

theorem readFromFile_text (text : appendMagic.isPrefixOf content = false) :
    readFromFile reader (some content) =
      ManifestText.readLines { reader with files := fun _ => [] } false none
        ((ManifestText.splitString 10 [] content).filter ManifestText.speaks) := by
  rw [ManifestText.readLines_filter, readFromFile]
  simp [text]

theorem text_append (text : ¬ IsCurrent content) :
    appendMagic.isPrefixOf (content ++ state.frame.take cut) = false := by
  obtain ⟨filled, unmarked⟩ := not_or.mp text
  have unmarked := Bool.eq_false_iff.mpr unmarked
  cases cut with
  | zero => simpa using unmarked
  | succ _ =>
    rcases content with _ | ⟨_, _ | ⟨_, _ | ⟨_, _ | ⟨_, _⟩⟩⟩⟩
    · exact absurd rfl filled
    all_goals simp_all [appendMagic, frame, tagSeq, isPrefixOf]

/-! ## The result -/

/-- A beginning of the frame is read without error, with the set of files from before the update or
the one from behind it. -/
def ReadsEither (reader state : ManifestState) (content : Bytes) (cut : Nat) : Prop :=
  let left := readFromFile reader (some (appendBase (some content) ++ state.frame.take cut))
  left.1 = .ok ∧ (SameSets left.2.files (readFromFile reader (some content)).2.files ∨
    SameSets left.2.files
      (readFromFile reader (some (appendBase (some content) ++ state.frame))).2.files)

section

variable (valid : (readFromFile reader (some content)).1 = .ok)
  (fits : ∀ record ∈ state.frameRecords, record.Fits)
include valid fits

/-- Records in front of a place where the frame ends. -/
theorem readsEither_iff_leavesSets (current : IsCurrent content) (count : Nat)
    (ends : state.frame.take cut = (state.frameRecords.take count).flatMap encode) :
    ReadsEither reader state content cut ↔ LeavesSets (readFromFile reader (some content)).2.files
      (state.frameRecords.take count) (state.frameRecords.drop count) := by
  obtain ⟨log, result, base_eq, replayed, before⟩ := replayed_of_valid current valid
  have front := readFromFile_records replayed
    (fun record member => fits record (mem_of_mem_take member) :
      ∀ record ∈ state.frameRecords.take count, record.Fits)
  have whole := readFromFile_records replayed fits
  have between : ∀ level < numLevels, ((state.frameRecords.take count).foldl ManifestRecord.apply
      result).files level = (state.frameRecords.take count).foldl (onLevel level)
        ((readFromFile reader (some content)).2.files level) := fun level inside => by
    rw [files_foldl_apply inside, before]
  have behind : ∀ level < numLevels, (state.frameRecords.foldl ManifestRecord.apply
      result).files level = (state.frameRecords.drop count).foldl (onLevel level)
        ((state.frameRecords.take count).foldl (onLevel level)
          ((readFromFile reader (some content)).2.files level)) := fun level inside => by
    rw [files_foldl_apply inside, before, ← foldl_append, take_append_drop]
  unfold ReadsEither LeavesSets
  dsimp only
  rw [base_eq, ends, frame_eq, front.2, whole.2]
  simp only [front.1, true_and]
  exact or_congr (sameSets_congr between fun _ _ => rfl) (sameSets_congr between behind)

section Torn

variable (current : IsCurrent content) {count : Nat} (inside : count < state.frameRecords.length)
  {part : Bytes} (beginning : part <+: (state.frameRecords[count]).encode)
  (different : part ≠ (state.frameRecords[count]).encode) (filled : part ≠ [])
include current beginning different filled

theorem refused_of_torn : (readFromFile reader (some (appendBase (some content) ++
      (state.frameRecords.take count).flatMap encode ++ part))).1 =
        .corruption "truncated MANIFEST" := by
  obtain ⟨_, result, base_eq, replayed, _⟩ := replayed_of_valid current valid
  have front : ∀ record ∈ state.frameRecords.take count, record.Fits :=
    fun record member => fits record (mem_of_mem_take member)
  have torn := readAll_torn progresses_replayRecord
    (fun record member => consumes_record (front record member))
    (consumes_record (fits _ (getElem_mem inside))) beginning different filled result
  rw [← readAll_append local_replayRecord progresses_replayRecord replayed] at torn
  rw [base_eq, append_assoc, append_assoc, readFromFile_log, torn]
  rfl

/-- A frame that ends inside a record is refused. -/
theorem torn_frame_refused : (readFromFile reader (some (appendBase (some content) ++
      (state.frameRecords.take count).flatMap encode ++ part))).1 =
        .corruption "truncated MANIFEST" :=
  refused_of_torn valid fits current inside beginning different filled

end Torn

/-- A beginning of a frame behind a file in the current format is read as the files from before the
update or from behind it exactly when it ends between two records and those on one side leave
the sets. Behind a text it is as long as it says nothing. -/
theorem cut_frame_reads_iff (cut : Nat) :
    (IsCurrent content → (ReadsEither reader state content cut ↔
      CutBetween (readFromFile reader (some content)).2.files state cut)) ∧
    (¬ IsCurrent content → CutUnread content (state.frame.take cut) →
      ReadsEither reader state content cut) := by
  refine ⟨fun current => ⟨fun reads => ?_, ?_⟩, fun text unread => ?_⟩
  · obtain ⟨count, bound, ends | ⟨inside, part, beginning, different, filled, ends⟩⟩ :=
      take_flatMap_cases encode state.frameRecords cut
    · rw [← frame_eq] at ends
      exact ⟨count, Nat.lt_succ_of_le bound, ends,
        (readsEither_iff_leavesSets valid fits current count ends).mp reads⟩
    · have refused := refused_of_torn valid fits current inside beginning different filled
      rw [append_assoc, ← ends, ← frame_eq] at refused
      exact absurd (reads.1.symm.trans refused) nofun
  · rintro ⟨count, _, ends, leaves⟩
    exact (readsEither_iff_leavesSets valid fits current count ends).mpr leaves
  · have unmarked : appendMagic.isPrefixOf content = false :=
      Bool.eq_false_iff.mpr (not_or.mp text).2
    have base_eq : appendBase (some content) = content := by
      cases content with
      | nil => exact absurd (.inl rfl) text
      | cons byte rest => rfl
    have same : readFromFile reader (some (content ++ state.frame.take cut)) =
        readFromFile reader (some content) := by
      rw [readFromFile_text unmarked, readFromFile_text (text_append text), unread]
    unfold ReadsEither
    rw [base_eq, same]
    exact ⟨valid, .inl fun _ _ => ⟨Subset.refl _, Subset.refl _⟩⟩

end

/-- A file with two tables of level 0. -/
def twoTables : ManifestState :=
  (ManifestState.new.addFile 0 ⟨1, [97], [98], 100⟩).addFile 0 ⟨2, [98], [99], 100⟩

/-- The two tables merged into one of level 1. -/
def mergedTables : ManifestState :=
  (((twoTables.writeToFile none none).2.1.addFile 1 ⟨3, [97], [99], 200⟩).removeFile 0 1).removeFile
    0 2

theorem torn_frame_refused_mergedTables :
    (readFromFile .new (some (appendBase (some twoTables.snapshot) ++
      (mergedTables.frameRecords.take 1).flatMap encode ++ [2, 0]))).1 =
        .corruption "truncated MANIFEST" :=
  torn_frame_refused (by decide +kernel) (by decide +kernel) (by decide +kernel)
    (by decide +kernel) (by decide +kernel) (by decide +kernel) (by decide)

/-- The first table is removed, and the second one replaced by itself. -/
def renewedTable : ManifestState :=
  (((twoTables.writeToFile none none).2.1.removeFile 0 1).removeFile 0 2).addFile
    0 ⟨2, [98], [99], 100⟩

/-- Behind the first removal the files are those that the whole frame leaves. -/
theorem cut_frame_reads_iff_renewed :
    ReadsEither .new renewedTable twoTables.snapshot 38 :=
  ((cut_frame_reads_iff (by decide +kernel) (by decide +kernel) 38).1 (by decide +kernel)).mpr
    (by decide +kernel)

/-- Behind the first removal one of the tables is left and the merged one is missing; inside
the second removal nothing is read. -/
theorem cut_frame_loses_tables :
    (readFromFile .new (some (twoTables.snapshot ++ mergedTables.frame.take 38))).1 = .ok ∧
      (readFromFile .new
        (some (twoTables.snapshot ++ mergedTables.frame.take 38))).2.files 0 =
          [⟨2, [98], [99], 100⟩] ∧
      (readFromFile .new (some (twoTables.snapshot ++ mergedTables.frame.take 38))).2.files 1 = [] ∧
      (readFromFile .new (some (twoTables.snapshot ++ mergedTables.frame.take 40))).1 =
        .corruption "truncated MANIFEST" := by
  decide +kernel

end ManifestState

end LightKV
