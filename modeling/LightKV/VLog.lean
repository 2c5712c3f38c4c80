import LightKV.ByteReader
import LightKV.TableBuilder
import Mathlib.Data.List.Fold
import Mathlib.Data.List.MinMax
import Mathlib.Order.Nat

/-!
# The value log

A value above the threshold is appended to a value-log file, and the memtable stores a
tagged pointer in its place: the file number, the offset and the length, eight bytes each.
Smaller values are stored with a zero tag in front. `Get` takes the tag off or follows the
pointer.

A value-log file is its written bytes and the zero bytes behind them, to which the mapping
was extended. The file being written is bounded by its write position; a file opened for
reading is bounded by its size, so its zero bytes can be read as well. A pointer that lies
within the written bytes of an existing file (`Resident`) therefore reads the same
whichever way the file was opened, and appending to the log never changes what it reads.
-/

namespace LightKV

open List Option

/-- The maximum that a loop collects bounds every item. -/
theorem le_foldl_max {α : Type} {items : List α} {item : α} (number : α → Nat)
    (member : item ∈ items) :
    number item ≤ items.foldl (fun highest item => max highest (number item)) 0 := by
  rw [← foldl_map (f := number) (g := max), foldl_eq_foldr]
  exact le_max_of_le (mem_map_of_mem member) (le_refl _)

/-! ## Files -/

/-- A value-log file: what was written and the number of zero bytes behind it. -/
structure VLogFile where
  id : Nat
  data : Bytes
  slack : Nat
  deriving DecidableEq, Repr

/-- The size of the file. -/
def VLogFile.size (file : VLogFile) : Nat :=
  file.data.length + file.slack

/-- `kInitialVLogSize`. -/
def initialVLogSize : Nat := 64 * 1024 * 1024

/-- `VLog::Open` of a file that does not exist. -/
def VLogFile.create (id : Nat) : VLogFile :=
  ⟨id, [], initialVLogSize⟩

/-- `VLog::Append`: the mapping is doubled when the value and 4096 bytes do not fit. -/
def VLogFile.append (file : VLogFile) (value : Bytes) : VLogFile :=
  let size := if file.size < file.data.length + value.length + 4096 then file.size * 2
    else file.size
  ⟨file.id, file.data ++ value, size - (file.data.length + value.length)⟩

/-- `VLog::Close`: a file with content is cut to what was written. -/
def VLogFile.close (file : VLogFile) : VLogFile :=
  if file.data.isEmpty then file else { file with slack := 0 }

/-- `VLogManager`: the file being written and the next file number. -/
structure VLogManager where
  activeId : Nat
  nextFileId : Nat
  deriving DecidableEq, Repr

/-- The file with a number. -/
def vlogFile? (files : List VLogFile) (id : Nat) : Option VLogFile :=
  files.find? fun file => decide (file.id = id)

namespace VLogManager

variable (manager : VLogManager) (files : List VLogFile)

/-- `VLogManager::Initialize`: the active file is a new one, numbered behind all others. -/
def initializeVLog : VLogManager × List VLogFile :=
  let maxId := files.foldl (fun highest file => max highest file.id) 0
  (⟨maxId + 1, maxId + 2⟩, files ++ [.create (maxId + 1)])

/-- Replace the file with a number. -/
def modify (id : Nat) (change : VLogFile → VLogFile) : List VLogFile :=
  files.map fun file => if file.id = id then change file else file

/-- The part of `VLogManager::Append` that moves to a new file when the value would pass the
size limit. -/
def roll (limit valueSize : Nat) : VLogManager × List VLogFile :=
  match vlogFile? files manager.activeId with
  | none => (manager, files)
  | some active =>
      if limit < active.data.length + valueSize then
        (⟨manager.nextFileId, manager.nextFileId + 1⟩,
          modify files manager.activeId VLogFile.close ++ [.create manager.nextFileId])
      else (manager, files)

/-- `VLogManager::Read`. A file that does not exist is created empty by the read. -/
def read (id offset length : Nat) : Except Status Bytes :=
  -- The sum of two `uint64_t`.
  let last := (offset + length) % 2 ^ 64
  match vlogFile? files id with
  | none => if 0 < last then .error (.ioError "vlog read out of range") else .ok []
  | some file =>
      let limit := if id = manager.activeId then file.data.length else file.size
      if limit < last then .error (.ioError "vlog read out of range")
      else .ok (((file.data ++ List.replicate file.slack 0).drop offset).take length)

/-- `unwrap_vlog`: take the tag off a stored value, or follow its pointer. -/
def unwrap (stored : Bytes) : Except Status Bytes :=
  match stored with
  | [] => .ok []
  | tag :: payload =>
      if tag = 0 then .ok payload
      else if tag = 1 ∧ payload.length = 24 then
        manager.read files (decodeFixed (payload.take 8)) (decodeFixed ((payload.drop 8).take 8))
          (decodeFixed (payload.drop 16))
      else .ok (tag :: payload)

/-- The pointer to a place in the log. -/
def pointer (id offset length : Nat) : Bytes :=
  1 :: (encodeFixed 8 id ++ encodeFixed 8 offset ++ encodeFixed 8 length)

/-- The value separation of `Put` and `BatchWrite`: the bytes to store, with the log after
it. -/
def storeValue (options : Options) (value : Bytes) : Bytes × VLogManager × List VLogFile :=
  if options.valueThreshold < value.length then
    let rolled := manager.roll files options.vlogFileSizeLimit value.length
    let offset := ((vlogFile? rolled.2 rolled.1.activeId).map fun file => file.data.length).getD 0
    (pointer rolled.1.activeId offset value.length, rolled.1,
      modify rolled.2 rolled.1.activeId fun file => file.append value)
  else (0 :: value, manager, files)

end VLogManager

/-! ## What a stored value reads -/

/-- The later log has every file of the earlier one, with at least its bytes. -/
def LogExtends (earlier later : List VLogFile) : Prop :=
  ∀ id file, vlogFile? earlier id = some file →
    ∃ longer, vlogFile? later id = some longer ∧ file.data <+: longer.data

theorem LogExtends.refl (files : List VLogFile) : LogExtends files files :=
  fun _ file found => ⟨file, found, prefix_refl _⟩

theorem LogExtends.trans (earlier : LogExtends first second) (later : LogExtends second third) :
    LogExtends first third := by
  intro id file found
  obtain ⟨longer, longer_found, extended⟩ := earlier id file found
  obtain ⟨longest, longest_found, further⟩ := later id longer longer_found
  exact ⟨longest, longest_found, extended.trans further⟩

/-- The place a stored value points to, if it is a pointer. -/
def pointer? (stored : Bytes) : Option (Nat × Nat × Nat) :=
  match stored with
  | [] => none
  | tag :: payload =>
      if tag = 1 ∧ payload.length = 24 then
        some (decodeFixed (payload.take 8), decodeFixed ((payload.drop 8).take 8),
          decodeFixed (payload.drop 16))
      else none

/-- A stored value that is no pointer, or points into the written bytes of a file. -/
def Resident (files : List VLogFile) (stored : Bytes) : Prop :=
  ∀ id offset length, pointer? stored = some (id, offset, length) →
    ∃ file, vlogFile? files id = some file ∧ offset + length ≤ file.data.length

theorem Resident.mono (resident : Resident earlier stored) (extended : LogExtends earlier later) :
    Resident later stored := by
  intro id offset length points
  obtain ⟨file, found, inside⟩ := resident id offset length points
  obtain ⟨longer, longer_found, longer_data⟩ := extended id file found
  exact ⟨longer, longer_found, le_trans inside longer_data.length_le⟩

namespace VLogManager

variable {files : List VLogFile} {file : VLogFile} {id offset length : Nat}

/-- A read within the written bytes does not depend on how the file was opened. -/
theorem read_of_inside {manager : VLogManager} (found : vlogFile? files id = some file)
    (inside : offset + length ≤ file.data.length) :
    manager.read files id offset length = .ok ((file.data.drop offset).take length) := by
  have bounded : ¬ (if id = manager.activeId then file.data.length else file.size) <
      (offset + length) % 2 ^ 64 := by
    have small := Nat.mod_le (offset + length) (2 ^ 64)
    unfold VLogFile.size
    split <;> omega
  simp only [read, found, if_neg bounded]
  rw [drop_append_of_le_length (by omega), take_append_of_le_length]
  rw [length_drop]
  omega

/-- A resident value reads the same in every extension of the log. -/
theorem unwrap_extends (manager later : VLogManager) (resident : Resident files stored)
    (extends_log : LogExtends files extended) :
    later.unwrap extended stored = manager.unwrap files stored := by
  cases stored with
  | nil => rfl
  | cons tag payload =>
    unfold unwrap
    by_cases inline : tag = 0
    · simp only [inline, if_true]
    simp only [inline]
    by_cases points : tag = 1 ∧ payload.length = 24
    · obtain ⟨file, found, inside⟩ := resident _ _ _ (if_pos points)
      obtain ⟨_, longer_found, longer_data⟩ := extends_log _ file found
      have further := le_trans inside longer_data.length_le
      rw [read_of_inside found inside, read_of_inside longer_found further]
      obtain ⟨_, longer_eq⟩ := longer_data
      rw [← longer_eq, drop_append_of_le_length (by omega), take_append_of_le_length]
      rw [length_drop]
      omega
    · rw [if_neg points, if_neg points]

/-- A resident value can be read. -/
theorem unwrap_ok (manager : VLogManager) (resident : Resident files stored) :
    ∃ value, manager.unwrap files stored = .ok value := by
  cases stored with
  | nil => exact ⟨[], rfl⟩
  | cons tag payload =>
    unfold unwrap
    by_cases inline : tag = 0
    · exact ⟨payload, by simp [inline]⟩
    simp only [inline, if_false]
    by_cases points : tag = 1 ∧ payload.length = 24
    · rw [if_pos points]
      obtain ⟨_, found, inside⟩ := resident _ _ _ (if_pos points)
      exact ⟨_, read_of_inside found inside⟩
    · exact ⟨_, by rw [if_neg points]⟩

/-- The active file exists and every file number is below the next one. -/
structure Sound (manager : VLogManager) (files : List VLogFile) : Prop where
  active : ∃ file, vlogFile? files manager.activeId = some file
  below : ∀ file ∈ files, file.id < manager.nextFileId

/-- Numbers and offsets that fit a pointer. -/
structure Addressable (manager : VLogManager) (files : List VLogFile) (value : Bytes) :
    Prop where
  number : manager.nextFileId < 2 ^ 64
  offset : ∀ file ∈ files, file.data.length < 2 ^ 64
  length : value.length < 2 ^ 64

instance (manager : VLogManager) (files : List VLogFile) (value : Bytes) :
    Decidable (manager.Addressable files value) :=
  decidable_of_iff (manager.nextFileId < 2 ^ 64 ∧ (∀ file ∈ files, file.data.length < 2 ^ 64) ∧
      value.length < 2 ^ 64)
    ⟨fun ⟨number, offset, length⟩ => ⟨number, offset, length⟩,
      fun addressable => ⟨addressable.number, addressable.offset, addressable.length⟩⟩

theorem vlogFile?_append :
    vlogFile? (files ++ [file]) id =
      (vlogFile? files id).or (if file.id = id then some file else none) := by
  unfold vlogFile?
  by_cases same : file.id = id <;> simp [same]

variable {change : VLogFile → VLogFile}

theorem vlogFile?_modify (keeps : ∀ file, (change file).id = file.id) :
    vlogFile? (modify files target change) id =
      (vlogFile? files id).map fun file => if file.id = target then change file else file := by
  unfold vlogFile? modify
  rw [find?_map]
  congr 2
  funext file
  by_cases same : file.id = target <;> simp [same, keeps]

/-- What is found has the number looked for and is in the list. -/
theorem vlogFile?_some (found : vlogFile? files id = some file) :
    file ∈ files ∧ file.id = id := ⟨mem_of_find?_eq_some found, by simpa using find?_some found⟩

theorem vlogFile?_eq_none (above : ∀ file ∈ files, file.id < id) : vlogFile? files id = none := by
  apply find?_eq_none.mpr
  intro file member
  simpa using ne_of_lt (above file member)

/-- Changing files in a way that keeps number and bytes extends the log. -/
theorem extends_modify (files : List VLogFile) (target : Nat)
    (keeps : ∀ file, (change file).id = file.id)
    (grows : ∀ file, file.data <+: (change file).data) :
    LogExtends files (modify files target change) := by
  intro _ file found
  rw [vlogFile?_modify keeps, found]
  refine ⟨_, rfl, ?_⟩
  dsimp only
  split
  · exact grows file
  · exact prefix_refl _

theorem extends_append : LogExtends files (files ++ [file]) := by
  intro _ old found
  refine ⟨old, ?_, prefix_refl _⟩
  rw [vlogFile?_append, found]
  rfl

theorem close_id (file : VLogFile) : file.close.id = file.id := by
  unfold VLogFile.close
  split <;> rfl

theorem close_data : file.close.data = file.data := by
  unfold VLogFile.close
  split <;> rfl

theorem mem_modify (keeps : ∀ file, (change file).id = file.id)
    (member : file ∈ modify files target change) : ∃ old ∈ files, file.id = old.id := by
  obtain ⟨old, inside, rfl⟩ := mem_map.mp member
  refine ⟨old, inside, ?_⟩
  split
  · exact keeps old
  · rfl

variable {manager : VLogManager} {files : List VLogFile}

/-- Opening the log starts a new file behind all others. -/
theorem sound_initializeVLog (files : List VLogFile) :
    (initializeVLog files).1.Sound (initializeVLog files).2 ∧
      LogExtends files (initializeVLog files).2 := by
  have bounded : ∀ file ∈ files, file.id ≤ _ := fun _ => le_foldl_max VLogFile.id
  refine ⟨⟨?_, ?_⟩, extends_append⟩
  · refine ⟨.create (files.foldl (fun highest file => max highest file.id) 0 + 1), ?_⟩
    have unused : vlogFile? files (initializeVLog files).1.activeId = none :=
      vlogFile?_eq_none fun file member => Nat.lt_succ_of_le (bounded file member)
    change vlogFile? (files ++ [_]) _ = _
    rw [vlogFile?_append, unused]
    simp [VLogFile.create, initializeVLog]
  · intro file member
    rcases mem_append.mp member with old | new
    · have := bounded file old
      change file.id < _ + 2
      omega
    · rw [mem_singleton.mp new]
      exact Nat.lt_succ_self _

theorem Sound.roll (sound : manager.Sound files) (limit valueSize : Nat) :
    (manager.roll files limit valueSize).1.Sound (manager.roll files limit valueSize).2 ∧
      LogExtends files (manager.roll files limit valueSize).2 := by
  obtain ⟨_, found⟩ := sound.active
  unfold VLogManager.roll
  rw [found]
  dsimp only
  split
  · refine ⟨⟨⟨.create manager.nextFileId, ?_⟩, ?_⟩, ?_⟩
    · rw [vlogFile?_append, vlogFile?_eq_none]
      · simp [VLogFile.create]
      · intro _ member
        obtain ⟨old, inside, same⟩ := mem_modify close_id member
        exact same ▸ sound.below old inside
    · intro file member
      change file.id < manager.nextFileId + 1
      rcases mem_append.mp member with old | new
      · obtain ⟨before, inside, _⟩ := mem_modify close_id old
        have := sound.below before inside
        omega
      · rw [mem_singleton.mp new]
        exact Nat.lt_succ_self _
    · refine LogExtends.trans (extends_modify files manager.activeId close_id ?_) extends_append
      intro _
      exact ⟨[], by rw [append_nil, close_data]⟩
  · exact ⟨sound, LogExtends.refl files⟩

theorem Addressable.roll (sound : manager.Sound files)
    (addressable : manager.Addressable files value) (limit : Nat) :
    (manager.roll files limit value.length).1.activeId < 2 ^ 64 ∧
      ∀ file ∈ (manager.roll files limit value.length).2, file.data.length < 2 ^ 64 := by
  obtain ⟨active, found⟩ := sound.active
  obtain ⟨active_in, active_id⟩ := vlogFile?_some found
  unfold VLogManager.roll
  rw [found]
  dsimp only
  split
  · refine ⟨addressable.number, ?_⟩
    intro _ member
    rcases mem_append.mp member with old | new
    · obtain ⟨before, inside, rfl⟩ := mem_map.mp old
      split
      · rw [close_data]
        exact addressable.offset before inside
      · exact addressable.offset before inside
    · rw [mem_singleton.mp new]
      exact Nat.two_pow_pos 64
  · refine ⟨?_, addressable.offset⟩
    rw [← active_id]
    exact lt_trans (sound.below active active_in) addressable.number

theorem pointer?_pointer (id_fits : id < 2 ^ 64) (offset_fits : offset < 2 ^ 64)
    (length_fits : length < 2 ^ 64) :
    pointer? (pointer id offset length) = some (id, offset, length) := by
  have first := decodeFixed_encodeFixed 8 id (by omega)
  have second := decodeFixed_encodeFixed 8 offset (by omega)
  have third := decodeFixed_encodeFixed 8 length (by omega)
  simp only [pointer?, pointer, append_assoc, length_append, length_encodeFixed]
  rw [if_pos (by decide), take_left' length_encodeFixed,
    drop_left' length_encodeFixed, take_left' length_encodeFixed,
    first, second, ← append_assoc, drop_left' (by simp), third]

theorem unwrap_of_pointer? (points : pointer? stored = some (id, offset, length)) :
    manager.unwrap files stored = manager.read files id offset length := by
  cases stored with
  | nil => simp [pointer?] at points
  | cons _ _ =>
    unfold pointer? at points
    dsimp only at points
    split at points
    · rename_i shape
      obtain ⟨rfl, rfl, rfl⟩ := points
      simp only [unwrap, shape.1, shape.2]
      simp
    · simp at points

/-- A value that stays inline, or that a pointer can address. -/
def Storable (manager : VLogManager) (files : List VLogFile) (options : Options)
    (value : Bytes) : Prop :=
  options.valueThreshold < value.length → manager.Addressable files value
  deriving Decidable

/-- A stored value reads back, and storing it extends the log. -/
theorem storeValue_spec (sound : manager.Sound files)
    (storable : manager.Storable files options value) :
    let stored := manager.storeValue files options value
    stored.2.1.Sound stored.2.2 ∧ LogExtends files stored.2.2 ∧ Resident stored.2.2 stored.1 ∧
      stored.2.1.unwrap stored.2.2 stored.1 = .ok value := by
  unfold storeValue
  split
  · rename_i large
    have addressable := storable large
    obtain ⟨rolled_sound, rolled_extends⟩ := sound.roll options.vlogFileSizeLimit value.length
    obtain ⟨id_fits, offsets_fit⟩ := addressable.roll sound options.vlogFileSizeLimit
    dsimp only
    generalize manager.roll files options.vlogFileSizeLimit value.length = rolled at *
    obtain ⟨active, found⟩ := rolled_sound.active
    obtain ⟨active_in, active_id⟩ := vlogFile?_some found
    have keeps : ∀ file : VLogFile, (file.append value).id = file.id := fun _ => rfl
    have grown : vlogFile? (modify rolled.2 rolled.1.activeId fun file => file.append value)
        rolled.1.activeId = some (active.append value) := by
      rw [vlogFile?_modify keeps, found]
      simp [active_id]
    have points := pointer?_pointer id_fits (offsets_fit active active_in) addressable.length
    have inside : active.data.length + value.length ≤ (active.append value).data.length := by
      simp [VLogFile.append]
    rw [found, map_some, getD_some]
    refine ⟨⟨⟨_, grown⟩, ?_⟩, ?_, ?_, ?_⟩
    · intro _ member
      obtain ⟨old, old_in, same⟩ := mem_modify keeps member
      exact same ▸ rolled_sound.below old old_in
    · exact rolled_extends.trans (extends_modify _ _ keeps fun _ => prefix_append _ _)
    · intro _ _ _ also
      have same := some.inj (points.symm.trans also)
      obtain ⟨rfl, rfl, rfl⟩ := same
      exact ⟨_, grown, inside⟩
    · rw [unwrap_of_pointer? points, read_of_inside grown inside]
      simp [VLogFile.append]
  · refine ⟨sound, LogExtends.refl files, ?_, rfl⟩
    intro _ _ _ points
    simp [pointer?] at points

end VLogManager

end LightKV
