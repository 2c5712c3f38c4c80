import LightKV.Levels
import LightKV.MemTable
import LightKV.TableBuilder

/-!
# Reading a table

A point read of a table asks the Bloom filter, seeks to the smallest internal key of the
user key and walks the versions found there until one is visible. The iterator's walk over
blocks is a walk over the list of versions here.

Flushed range tombstones are stored in tables as well, under keys that begin with four
`0xFF` bytes. No key without this marker sorts behind it, so a seek to the marker reaches
exactly the stored tombstones of a sorted table.
-/

namespace LightKV

open Versions Levels List TableBuilder

/-- The key under which range tombstones are stored begins with these bytes. -/
def marker : Bytes := [255, 255, 255, 255]

/-- A key that begins with the marker. -/
def reserved (key : Bytes) : Bool :=
  marker.isPrefixOf key

/-- The keys a client uses: not empty and not behind the marker. -/
def UserKey (key : Bytes) : Prop :=
  key ≠ [] ∧ reserved key = false
  deriving Decidable

/-- The largest byte repeated is below a key only if it begins the key. -/
theorem replicate_le_iff (count : Nat) (key : Bytes) :
    replicate count 255 ≤ key ↔ (replicate count 255).isPrefixOf key = true := by
  induction count generalizing key with
  | zero => exact ⟨fun _ => rfl, fun _ => le_of_not_gt (not_lt_nil key)⟩
  | succ _ ih =>
    cases key with
    | nil =>
      rw [replicate_succ]
      simp
    | cons byte rest =>
      have top : ¬ (255 : UInt8) < byte := by
        have bound := byte.toNat_lt
        rw [UInt8.lt_iff_toNat_lt, show (255 : UInt8).toNat = 255 from rfl]
        omega
      rw [replicate_succ, ← not_lt, cons_lt_cons_iff, isPrefixOf_cons_cons,
        Bool.and_eq_true, ← ih rest, beq_iff_eq, not_or, not_lt]
      constructor
      · rintro ⟨reached, below⟩
        have same : (255 : UInt8) = byte := le_antisymm reached (le_of_not_gt top)
        exact ⟨same, le_of_not_gt fun less => below ⟨same.symm, less⟩⟩
      · rintro ⟨same, below⟩
        exact ⟨le_of_eq same, fun reversed => absurd reversed.2 (not_lt_of_ge below)⟩

theorem marker_le_iff (key : Bytes) : marker ≤ key ↔ reserved key = true := replicate_le_iff 4 key

namespace SSTable

variable (table : SSTable)

/-- `SSTable::SmallestKey`: the first user key, empty for a table without versions. -/
def smallestKey : Bytes :=
  (table.entries.head?.map Entry.key).getD []

/-- `SSTable::LargestKey`: the last user key, empty for a table without versions. -/
def largestKey : Bytes :=
  (table.entries.getLast?.map Entry.key).getD []

/-- `SSTable::MayMatch`. -/
def mayMatch (key : Bytes) : Bool :=
  table.bloom.mayMatch key

/-- `SSTable::Iterator::Seek`: the versions from the first one that is not below the
target. -/
def seek (target : InternalKey) : List Entry :=
  table.entries.dropWhile fun entry =>
    decide (compareInternalKeys (makeInternalKey entry.key entry.seq entry.type.byte) target < 0)

/-- `SSTable::Get`. -/
def get (key : Bytes) (snapshot : Nat) : Option Entry :=
  if !table.entries.isEmpty && !table.mayMatch key then none
  else ((table.seek (seekInternalKey key)).takeWhile fun entry => decide (entry.key = key)).find?
    fun entry => decide (entry.seq ≤ snapshot)

/-- The tombstone stored under a reserved key. -/
def tombstoneOf (entry : Entry) : RangeTombstone :=
  ⟨entry.key.drop 4, entry.value, entry.seq⟩

/-- The tombstones `LoadRangeTombstonesFromSSTables` finds in one table. -/
def rangeTombstones : List RangeTombstone :=
  ((table.seek (seekInternalKey marker)).takeWhile fun entry => reserved entry.key).map tombstoneOf

/-- The version a range tombstone is stored as. -/
def tombstoneEntry (tombstone : RangeTombstone) : Entry :=
  ⟨marker ++ tombstone.beginKey, tombstone.seq, .value, tombstone.endKey⟩

theorem reserved_tombstoneEntry : reserved (tombstoneEntry tombstone).key = true := by
  simp [reserved, tombstoneEntry, marker]

/-- The recorded keys are those of the first and the last version. -/
theorem bounds : Bounds Entry.key SSTable.entries smallestKey largestKey where
  first_eq table entry rest run_eq := by simp [smallestKey, run_eq]
  last_eq table front entry run_eq := by simp [largestKey, run_eq]

/-- A seek skips the smaller user keys and nothing else. -/
theorem seek_seekInternalKey :
    table.seek (seekInternalKey key) = fromKey Entry.key key table.entries := by
  unfold seek fromKey
  congr 1
  funext entry
  apply decide_eq_decide.mpr
  rw [compareInternalKeys_neg_iff, show (seekInternalKey key).trailer = 0 from rfl]
  simp [makeInternalKey, seekInternalKey]

/-- What the engine relies on in a table: its versions are sorted and its filter knows
their keys. -/
structure WellFormed (table : SSTable) : Prop where
  sorted : Sorted Entry.key Entry.rank table.entries
  filtered : ∀ entry ∈ table.entries, table.mayMatch entry.key = true

theorem mayMatch_build {fileId : Nat} {entries : List Entry}
    (member : entry ∈ entries) : (build options fileId entries).mayMatch entry.key = true := by
  have filtered := (filtered_new options).foldl_add entries
  unfold mayMatch build
  rw [bloom_finish]
  apply filtered
  simpa [entries_foldl_add] using member

/-- A table of sorted versions is well formed. -/
theorem wellFormed_build (options : Options) (fileId : Nat) {entries : List Entry}
    (sorted : Sorted Entry.key Entry.rank entries) :
    (TableBuilder.build options fileId entries).WellFormed := by
  constructor
  · rwa [entries_build]
  · intro _ member
    rw [entries_build] at member
    exact mayMatch_build member

variable {table}

section

variable (wellFormed : table.WellFormed)
include wellFormed

/-- A point read of a well-formed table is a search for the newest visible version. -/
theorem WellFormed.get_eq_lookup :
    table.get key snapshot =
      lookup Entry.key key (fun entry => decide (entry.seq ≤ snapshot)) table.entries := by
  unfold get
  split
  · -- A key the filter rejects has no version.
    rename_i rejected
    simp only [Bool.and_eq_true, Bool.not_eq_true'] at rejected
    symm
    rw [wellFormed.sorted.keySorted.lookup_eq_find]
    apply find?_eq_none.mpr
    intro entry member
    obtain ⟨inside, same⟩ := mem_ofKey.mp member
    have present := wellFormed.filtered entry inside
    rw [same, rejected.2] at present
    exact absurd present (by decide)
  · rw [seek_seekInternalKey]
    congr 2
    funext entry
    exact decide_eq_decide.mpr Iff.rfl

/-- A point read returns the newest version that the snapshot sees. -/
theorem WellFormed.newest_of_get (found : table.get key snapshot = some entry) :
    Newest Entry.key Entry.rank {other | other ∈ table.entries ∧ other.seq ≤ snapshot} key
      entry := by
  rw [wellFormed.get_eq_lookup] at found
  simpa only [decide_eq_true_eq] using wellFormed.sorted.newest_of_lookup found

theorem WellFormed.absent_of_get (missing : table.get key snapshot = none) :
    ∀ entry ∈ table.entries, entry.key = key → snapshot < entry.seq := by
  intro entry member same
  rw [wellFormed.get_eq_lookup] at missing
  have hidden := wellFormed.sorted.keySorted.absent_of_lookup missing entry member same
  exact Nat.lt_of_not_le (of_decide_eq_false hidden)

/-- The stored tombstones of a sorted table are its versions with reserved keys. -/
theorem WellFormed.mem_rangeTombstones :
    tombstone ∈ table.rangeTombstones ↔
      ∃ entry ∈ table.entries, reserved entry.key = true ∧ tombstoneOf entry = tombstone := by
  have keySorted := wellFormed.sorted.keySorted
  unfold rangeTombstones
  rw [seek_seekInternalKey, mem_map]
  constructor
  · rintro ⟨entry, member, rfl⟩
    have chosen := mem_takeWhile_imp (p := fun entry : Entry => reserved entry.key) member
    exact ⟨entry, fromKey_sublist.mem ((takeWhile_sublist _).mem member), chosen, rfl⟩
  rintro ⟨entry, member, behind, rfl⟩
  refine ⟨entry, ?_, rfl⟩
  -- Everything from the marker on is reserved, so the walk does not stop.
  have whole : (fromKey Entry.key marker table.entries).takeWhile
      (fun entry => reserved entry.key) = fromKey Entry.key marker table.entries := by
    apply takeWhile_eq_self_iff.mpr
    intro other inside
    exact (marker_le_iff other.key).mp (keySorted.le_key_of_mem_fromKey inside)
  rw [whole]
  have reached : ¬ entry.key < marker := not_lt_of_ge ((marker_le_iff entry.key).mpr behind)
  rw [← below_append_fromKey Entry.key marker table.entries, mem_append] at member
  rcases member with front | back
  · exact absurd (key_lt_of_mem_below front) reached
  · exact back

/-! ## Another number of bits per key -/

end

/-- `SSTable::Open`: the bits of the filter are those of the file, the number of probes is that
of the options the table is opened with. -/
def openWith (bitsPerKey : Nat) (table : SSTable) : SSTable :=
  { table with bloom := { table.bloom with k := (BloomFilter.new bitsPerKey).k } }

/-- Fewer probes are the first of the many. -/
theorem probes_eq_take {few many : Nat} (fewer : few ≤ many) {hash delta : UInt32} :
    BloomFilter.probes few hash delta = (BloomFilter.probes many hash delta).take few := by
  induction few generalizing many hash with
  | zero => rfl
  | succ _ ih =>
    obtain ⟨rest, rfl⟩ := Nat.exists_eq_add_of_le' fewer
    exact congrArg (_ :: ·) (ih (Nat.le_add_left _ _))

/-- The bits of the filter are those that were set for the keys. -/
theorem mem_bits_build {fileId : Nat} {entries : List Entry} :
    position ∈ (build options fileId entries).bloom.bits ↔
      ∃ entry ∈ entries,
        position ∈ (BloomFilter.new options.bloomBitsPerKey).positions entry.key := by
  have added : ∀ (builder : TableBuilder) (entries : List Entry),
      position ∈ (entries.foldl TableBuilder.add builder).bloom.bits ↔
        position ∈ builder.bloom.bits ∨
          ∃ entry ∈ entries, position ∈ builder.bloom.positions entry.key := by
    intro builder entries
    induction entries generalizing builder with
    | nil => simp
    | cons entry _ ih =>
      rw [foldl_cons, ih, bloom_add]
      simp only [BloomFilter.add, mem_append, exists_mem_cons_iff, BloomFilter.positions]
      tauto
  rw [build, bloom_finish, added]
  simp [TableBuilder.new, BloomFilter.new]

/-- Every position that is probed for a key under the one option was set for some key under the
other. -/
def ProbesSet (built opened : Nat) (keys : List Bytes) : Prop :=
  ∀ key ∈ keys, ∀ position ∈ (BloomFilter.new opened).positions key,
    ∃ other ∈ keys, position ∈ (BloomFilter.new built).positions other

/-- For this key the thirty positions are different. -/
theorem probes_nodup : (BloomFilter.probes 30 (Slice.hash [97])
    ((Slice.hash [97] >>> 17) ||| (Slice.hash [97] <<< 15))).Nodup := by decide +kernel

/-- All sets of keys are covered exactly if no more positions are probed than are set. -/
theorem probesSet_iff {built opened : Nat} :
    (∀ keys, ProbesSet built opened keys) ↔
      (BloomFilter.new opened).k ≤ (BloomFilter.new built).k := by
  constructor
  · intro set
    by_contra more
    have more := not_le.mp more
    have cap := @BloomFilter.k_new_le opened
    -- The first position that is probed and was not set for the key.
    have probed := @set [[97]] [97] mem_cons_self
    simp only [mem_singleton, exists_eq_left, BloomFilter.positions] at probed
    rw [probes_eq_take cap, probes_eq_take (le_trans (le_of_lt more) cap)] at probed
    have nodup := probes_nodup
    have size : (BloomFilter.probes 30 (Slice.hash [97])
      ((Slice.hash [97] >>> 17) ||| (Slice.hash [97] <<< 15))).length = 30 := rfl
    generalize BloomFilter.probes 30 _ _ = all at *
    have inside : (BloomFilter.new built).k < all.length := by omega
    have found := probed all[(BloomFilter.new built).k]
      (mem_take_iff_getElem.mpr ⟨_, by omega, rfl⟩)
    obtain ⟨place, bound, same⟩ := mem_take_iff_getElem.mp found
    have := (nodup.getElem_inj_iff).mp same
    omega
  · intro fewer keys key member position probed
    refine ⟨key, member, ?_⟩
    rw [BloomFilter.positions, probes_eq_take fewer] at probed
    exact mem_of_mem_take probed

/-- A table finds the keys that were added exactly if every position that is probed was set. For
all sets of keys that is so exactly if it is opened for no more probes than it was built with. -/
theorem opened_table_finds_keys_iff (options : Options) (fileId bitsPerKey : Nat) :
    (∀ entries : List Entry, (∀ entry ∈ entries,
        ((build options fileId entries).openWith bitsPerKey).mayMatch entry.key = true ∧
          ∀ snapshot, Sorted Entry.key Entry.rank entries → entry.seq ≤ snapshot →
            ((build options fileId entries).openWith bitsPerKey).get entry.key snapshot ≠ none) ↔
      ProbesSet options.bloomBitsPerKey bitsPerKey (entries.map Entry.key)) ∧
    ((∀ keys, ProbesSet options.bloomBitsPerKey bitsPerKey keys) ↔
      (BloomFilter.new bitsPerKey).k ≤ (BloomFilter.new options.bloomBitsPerKey).k) := by
  refine ⟨fun entries => ?_, probesSet_iff⟩
  have matches_iff : (∀ entry ∈ entries,
      ((build options fileId entries).openWith bitsPerKey).mayMatch entry.key = true) ↔
        ProbesSet options.bloomBitsPerKey bitsPerKey (entries.map Entry.key) := by
    simp only [mayMatch, openWith, BloomFilter.mayMatch, all_eq_true, contains_iff_mem,
      mem_bits_build, ProbesSet, forall_mem_map]
    simp only [mem_map, exists_exists_and_eq_and]
    rfl
  rw [← matches_iff]
  refine ⟨fun found entry member => (found entry member).1, fun matched entry member => ?_⟩
  refine ⟨matched entry member, fun snapshot sorted visible missing => ?_⟩
  have wellFormed : ((build options fileId entries).openWith bitsPerKey).WellFormed :=
    ⟨by rwa [openWith, entries_build], by rwa [openWith, entries_build]⟩
  have hidden := wellFormed.absent_of_get missing entry (by rwa [openWith, entries_build]) rfl
  omega

/-- With ten bits per key six bits are set for a key; with twenty, thirteen are probed. -/
theorem opened_table_misses_key :
    ((build {} 1 [⟨[97], 1, .value, [0]⟩]).openWith 20).mayMatch [97] = false ∧
      ((build {} 1 [⟨[97], 1, .value, [0]⟩]).openWith 20).get [97] 1 = none := by
  decide +kernel

end SSTable

end LightKV
