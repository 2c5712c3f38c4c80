import LightKV.ByteReader

/-!
# State images

A state image is a magic number, a version, the number of rows, and each row as two byte strings
behind their lengths. `DecodeStateImage` accepts the images that `EncodeStateImage` writes and
nothing else. A read that is not of the image is an outcome of its own.
-/

namespace LightKV.StateImage

open List

abbrev Row := Bytes × Bytes

/-- `kMagic`. -/
def magic : Bytes := [0x4C, 0x4B, 0x56, 0x53]

def encodeRow (row : Row) : Bytes := encodeBytes row.1 ++ encodeBytes row.2

/-- `EncodeStateImage` behind the scan. -/
def encodeStateImage (rows : List Row) : Bytes :=
  magic ++ encodeFixed 4 1 ++ encodeFixed 8 rows.length ++ rows.flatMap encodeRow

/-- What decoding comes to. -/
inductive Decoded where
  /-- Bytes that are not of the image were read. -/
  | outside
  | corruption (message : String)
  | ok (rows : List Row)

/-- Read `size` bytes. -/
def load (data : Bytes) (off size : Nat) (next : Bytes → Decoded) : Decoded :=
  if off + size ≤ data.length then next ((data.drop off).take size) else .outside

/-- The loop of `DecodeStateImage` and the check behind it. The sums are of type `size_t`. -/
def decodeRows (data : Bytes) : Nat → Nat → List Row → Decoded
  | 0, off, rows =>
      if off ≠ data.length then
        .corruption s!"snapshot image has {data.length - off} bytes of trailing garbage"
      else .ok rows
  | count + 1, off, rows =>
      if data.length < (off + 4) % 2 ^ 64 then
        .corruption "snapshot image truncated at key length"
      else
        load data off 4 fun field =>
          let klen := decodeFixed field
          let off := off + 4
          if data.length < (off + klen + 4) % 2 ^ 64 then
            .corruption "snapshot image truncated at key body"
          else
            load data off klen fun key =>
              let off := off + klen
              load data off 4 fun field =>
                let vlen := decodeFixed field
                let off := off + 4
                if data.length < (off + vlen) % 2 ^ 64 then
                  .corruption "snapshot image truncated at value body"
                else
                  load data off vlen fun value =>
                    decodeRows data count (off + vlen) (rows ++ [(key, value)])

def decodeStateImage (data : Bytes) : Decoded :=
  if data.length < 16 then
    .corruption s!"snapshot image is truncated ({data.length} bytes)"
  else
    load data 0 4 fun found =>
      if found ≠ magic then .corruption "snapshot image has a bad magic"
      else
        load data 4 4 fun field =>
          let version := decodeFixed field
          if version ≠ 1 then .corruption s!"unsupported snapshot version {version}"
          else
            load data 8 8 fun field =>
              let count := decodeFixed field
              if (data.length - 16) / 8 + 1 < count then
                .corruption (s!"snapshot image declares {count} entries but is only " ++
                  s!"{data.length} bytes")
              else decodeRows data count 16 []

/-- Both lengths of a row fit in 32 bits. -/
def Short (row : Row) : Prop := row.1.length < 2 ^ 32 ∧ row.2.length < 2 ^ 32

section

variable {data : Bytes} {off size count : Nat} {rows : List Row}

/-- A number that was read, and the bytes behind it. -/
theorem drop_eq_encodeFixed (within : off + size ≤ data.length) :
    decodeFixed ((data.drop off).take size) < 256 ^ size ∧
      data.drop off = encodeFixed size (decodeFixed ((data.drop off).take size)) ++
        data.drop (off + size) := by
  have length_eq : ((data.drop off).take size).length = size := by simp; omega
  have bounded := decodeFixed_lt ((data.drop off).take size)
  have same := encodeFixed_decodeFixed ((data.drop off).take size)
  rw [length_eq] at bounded same
  rw [same, ← drop_drop, take_append_drop]
  exact ⟨bounded, rfl⟩

/-- The rows that the loop accepts are encoded at its offset. -/
theorem decodeRows_sound (small : data.length < 2 ^ 63) (within : off ≤ data.length) :
    decodeRows data count off rows ≠ .outside ∧
      ∀ result, decodeRows data count off rows = .ok result → ∃ more, result = rows ++ more ∧
        more.length = count ∧ data.drop off = more.flatMap encodeRow ∧
        ∀ row ∈ more, Short row := by
  induction count generalizing off rows with
  | zero =>
    rw [decodeRows]
    split
    · exact ⟨nofun, nofun⟩
    rename_i ended
    rw [not_not] at ended
    refine ⟨nofun, ?_⟩
    rintro _ ⟨⟩
    exact ⟨[], (append_nil rows).symm, rfl, drop_eq_nil_of_le ended.ge, nofun⟩
  | succ count ih =>
    rw [decodeRows]
    split
    · exact ⟨nofun, nofun⟩
    rw [load, if_pos (by omega)]
    obtain ⟨klen_lt, keyField⟩ := @drop_eq_encodeFixed data off 4 (by omega)
    generalize decodeFixed ((data.drop off).take 4) = klen at *
    dsimp only
    split
    · exact ⟨nofun, nofun⟩
    rw [load, if_pos (by omega), load, if_pos (by omega)]
    obtain ⟨vlen_lt, valueField⟩ := @drop_eq_encodeFixed data (off + 4 + klen) 4 (by omega)
    generalize decodeFixed ((data.drop (off + 4 + klen)).take 4) = vlen at *
    split
    · exact ⟨nofun, nofun⟩
    rw [load, if_pos (by omega)]
    obtain ⟨inside, accepted⟩ := @ih (off + 4 + klen + 4 + vlen) _ (by omega)
    refine ⟨inside, fun result read => ?_⟩
    obtain ⟨more, rfl, rfl, found, short⟩ := accepted result read
    have keyLength : ((data.drop (off + 4)).take klen).length = klen := by simp; omega
    have valueLength : ((data.drop (off + 4 + klen + 4)).take vlen).length = vlen := by simp; omega
    refine ⟨_ :: more, append_assoc .., rfl, ?_, ?_⟩
    · rw [flatMap_cons, ← found, encodeRow, encodeBytes, encodeBytes, keyLength, valueLength,
        keyField, append_assoc, append_assoc, append_assoc, ← drop_drop (i := vlen),
        take_append_drop, ← valueField, ← drop_drop (i := klen), take_append_drop]
    · rw [forall_mem_cons]
      exact ⟨⟨by rw [keyLength]; omega, by rw [valueLength]; omega⟩, short⟩

/-- Reading what stands at the offset. -/
theorem load_of_drop {field rest : Bytes} (found : data.drop off = field ++ rest)
    (size_eq : field.length = size) (within : off ≤ data.length) :
    (∀ next, load data off size next = next field) ∧ data.drop (off + size) = rest ∧
      off + size ≤ data.length := by
  have length_eq := congrArg length found
  rw [length_drop, length_append] at length_eq
  subst size_eq
  refine ⟨fun next => ?_, ?_, by omega⟩
  · rw [load, if_pos (by omega), found, take_left]
  · rw [← drop_drop, found, drop_left]

theorem decodeRows_complete {more : List Row} (small : data.length < 2 ^ 63)
    (within : off ≤ data.length) (short : ∀ row ∈ more, Short row)
    (found : data.drop off = more.flatMap encodeRow) :
    decodeRows data more.length off rows = .ok (rows ++ more) := by
  induction more generalizing off rows with
  | nil =>
    rw [length_nil, decodeRows, if_neg, append_nil]
    rw [flatMap_nil, drop_eq_nil_iff] at found
    omega
  | cons row more ih =>
    obtain ⟨key, value⟩ := row
    rw [forall_mem_cons] at short
    obtain ⟨⟨keyShort, valueShort⟩, short⟩ := short
    simp only [flatMap_cons, encodeRow, encodeBytes, append_assoc] at found
    obtain ⟨keyLength, found, afterLength⟩ := load_of_drop found length_encodeFixed within
    obtain ⟨keyBody, found, afterKey⟩ := load_of_drop found rfl afterLength
    obtain ⟨valueLength, found, beforeValue⟩ := load_of_drop found length_encodeFixed afterKey
    obtain ⟨valueBody, found, afterValue⟩ := load_of_drop found rfl beforeValue
    rw [length_cons, decodeRows, if_neg (by omega), keyLength,
      decodeFixed_encodeFixed 4 _ keyShort]
    dsimp only
    rw [if_neg (by omega), keyBody, valueLength, decodeFixed_encodeFixed 4 _ valueShort]
    dsimp only
    rw [if_neg (by omega), valueBody, ih afterValue short found, append_assoc]
    rfl

end

/-- Every row takes eight bytes or more. -/
theorem length_flatMap_encodeRow (rows : List Row) :
    8 * rows.length ≤ (rows.flatMap encodeRow).length := by
  induction rows with
  | nil => exact le_refl 0
  | cons row rows ih =>
    rw [flatMap_cons, length_cons, encodeRow, encodeBytes, encodeBytes]
    simp only [length_append, length_encodeFixed]
    omega

theorem decodeStateImage_sound {data : Bytes} (small : data.length < 2 ^ 63) :
    decodeStateImage data ≠ .outside ∧ ∀ rows, decodeStateImage data = .ok rows →
      data = encodeStateImage rows ∧ ∀ row ∈ rows, Short row := by
  rw [decodeStateImage]
  split
  · exact ⟨nofun, nofun⟩
  rw [load, if_pos (by omega)]
  split
  · exact ⟨nofun, nofun⟩
  rename_i isMagic
  rw [load, if_pos (by omega)]
  obtain ⟨_, versionField⟩ := @drop_eq_encodeFixed data 4 4 (by omega)
  generalize decodeFixed ((data.drop 4).take 4) = version at *
  dsimp only
  split
  · exact ⟨nofun, nofun⟩
  rename_i isVersion
  rw [load, if_pos (by omega)]
  obtain ⟨_, countField⟩ := @drop_eq_encodeFixed data 8 8 (by omega)
  generalize decodeFixed ((data.drop 8).take 8) = count at *
  split
  · exact ⟨nofun, nofun⟩
  obtain ⟨inside, accepted⟩ := @decodeRows_sound data 16 count [] small (by omega)
  refine ⟨inside, fun rows read => ?_⟩
  obtain ⟨_, rfl, rfl, found, short⟩ := accepted rows read
  refine ⟨?_, short⟩
  rw [not_not] at isMagic isVersion
  subst isVersion
  rw [encodeStateImage, ← found, append_assoc, ← countField, append_assoc,
    ← versionField, ← isMagic, drop_zero, take_append_drop]

theorem decodeStateImage_complete {rows : List Row}
    (small : (encodeStateImage rows).length < 2 ^ 63) (short : ∀ row ∈ rows, Short row) :
    decodeStateImage (encodeStateImage rows) = .ok rows := by
  have found : (encodeStateImage rows).drop 0 = magic ++ (encodeFixed 4 1 ++
      (encodeFixed 8 rows.length ++ rows.flatMap encodeRow)) := by
    simp [encodeStateImage]
  have length_eq : (encodeStateImage rows).length = 16 + (rows.flatMap encodeRow).length := by
    rw [encodeStateImage, length_append]
    simp [magic]
  have enough := length_flatMap_encodeRow rows
  have magic_length : magic.length = 4 := rfl
  obtain ⟨readMagic, found, afterMagic⟩ := load_of_drop found magic_length (Nat.zero_le _)
  obtain ⟨readVersion, found, afterVersion⟩ := load_of_drop found length_encodeFixed afterMagic
  obtain ⟨readCount, found, afterCount⟩ := load_of_drop found length_encodeFixed afterVersion
  rw [decodeStateImage, if_neg (by omega), readMagic, if_neg (not_not.mpr rfl), readVersion]
  rw [if_neg (by decide), readCount, decodeFixed_encodeFixed 8 _ (by omega), if_neg (by omega)]
  exact decodeRows_complete small afterCount short found

/-- For every string, decoding reads nothing outside it, and returns exactly the rows whose image
it is. -/
theorem stateImage_exact (data : Bytes) (small : data.length < 2 ^ 63) :
    decodeStateImage data ≠ .outside ∧
      ∀ rows, decodeStateImage data = .ok rows ↔
        data = encodeStateImage rows ∧ ∀ row ∈ rows, Short row := by
  obtain ⟨inside, accepted⟩ := decodeStateImage_sound small
  refine ⟨inside, fun rows => ⟨accepted rows, ?_⟩⟩
  rintro ⟨rfl, short⟩
  exact decodeStateImage_complete small short

theorem stateImage_exact_one_row :
    decodeStateImage (encodeStateImage [([97], [98])]) = .ok [([97], [98])] :=
  ((stateImage_exact (encodeStateImage [([97], [98])]) (by decide)).2 [([97], [98])]).mpr
    ⟨rfl, by simp [Short]⟩

end LightKV.StateImage
