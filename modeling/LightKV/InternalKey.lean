import LightKV.Basic
import LightKV.StdSort
import LightKV.Versions

/-!
# Internal keys

A table stores, behind each user key, a trailer that packs the sequence number and the
type of the entry, inverted so that a newer version has the smaller trailer. Tables and
the flush order internal keys with `CompareInternalKeys`: user keys first, then trailers.

An `Entry` is one version of a key, in a memtable or in a table. Its rank is the number
the trailer inverts. On user keys that are not empty the comparison of internal keys is
the order of `Versions.Before` for that rank; for the empty user key the source answers
`0` whatever the trailers are.
-/

namespace LightKV

open Versions List

variable {first second : Entry}

/-- `ValueType`: a deletion marker or a value. -/
inductive ValueType where
  | deletion
  | value
  deriving DecidableEq, Repr

/-- The byte a type is stored as. -/
def ValueType.byte : ValueType → Nat
  | .deletion => 0
  | .value => 1

/-- The type a stored byte stands for. -/
def ValueType.ofByte (byte : Nat) : ValueType :=
  if byte = 0 then .deletion else .value

theorem ValueType.byte_le_one (type : ValueType) : type.byte ≤ 1 := by
  cases type <;> decide

theorem ValueType.byte_injective {first second : ValueType}
    (same : first.byte = second.byte) : first = second := by
  cases first <;> cases second <;> simp_all [ValueType.byte]

/-- One version of a key. -/
structure Entry where
  key : Bytes
  seq : Nat
  type : ValueType
  value : Bytes
  deriving DecidableEq, Repr

/-- Newer versions have the larger rank; at one sequence number a value is above a
deletion. -/
def Entry.rank (entry : Entry) : Nat :=
  entry.seq * 256 + entry.type.byte

theorem Entry.rank_le_of_seq_lt (older : first.seq < second.seq) : first.rank ≤ second.rank := by
  have := first.type.byte_le_one
  unfold Entry.rank
  omega

theorem Entry.rank_lt_of_seq_lt (older : first.seq < second.seq) : first.rank < second.rank := by
  have := first.type.byte_le_one
  unfold Entry.rank
  omega

theorem Entry.seq_le_of_rank_le (older : first.rank ≤ second.rank) : first.seq ≤ second.seq := by
  have := second.type.byte_le_one
  unfold Entry.rank at older
  omega

/-- At one sequence number nothing but a value is at least as new as a value. -/
theorem Entry.value_of_rank_le (same : first.seq = second.seq) (value : first.type = .value)
    (older : first.rank ≤ second.rank) : second.type = .value := by
  cases kind : second.type with
  | value => rfl
  | deletion =>
    unfold Entry.rank at older
    rw [value, kind] at older
    simp only [ValueType.byte] at older
    omega

theorem Entry.rank_eq_iff :
    first.rank = second.rank ↔ first.seq = second.seq ∧ first.type = second.type := by
  constructor
  · intro same
    have first_bound := first.type.byte_le_one
    have second_bound := second.type.byte_le_one
    unfold Entry.rank at same
    exact ⟨by omega, ValueType.byte_injective (by omega)⟩
  · rintro ⟨seq_eq, type_eq⟩
    rw [Entry.rank, Entry.rank, seq_eq, type_eq]

/-! ## Trailers -/

/-- `PackInternalTrailer`: the shifted sequence number with the type, inverted. -/
def packInternalTrailer (seq type : Nat) : Nat :=
  2 ^ 64 - 1 - (seq * 256 + type) % 2 ^ 64

/-- `UnpackInternalSeq`. -/
def unpackInternalSeq (trailer : Nat) : Nat :=
  (2 ^ 64 - 1 - trailer) / 256

/-- `UnpackInternalType`. -/
def unpackInternalType (trailer : Nat) : Nat :=
  (2 ^ 64 - 1 - trailer) % 256

theorem unpackInternalSeq_pack (bounded : seq < 2 ^ 56) (type : ValueType) :
    unpackInternalSeq (packInternalTrailer seq type.byte) = seq := by
  have := type.byte_le_one
  unfold unpackInternalSeq packInternalTrailer
  omega

theorem unpackInternalType_pack (seq : Nat) (type : ValueType) :
    unpackInternalType (packInternalTrailer seq type.byte) = type.byte := by
  have := type.byte_le_one
  unfold unpackInternalType packInternalTrailer
  omega

/-- A user key with its trailer. -/
structure InternalKey where
  userKey : Bytes
  trailer : Nat
  deriving DecidableEq, Repr

/-- `MakeInternalKey`. -/
def makeInternalKey (userKey : Bytes) (seq type : Nat) : InternalKey :=
  ⟨userKey, packInternalTrailer seq type⟩

/-- `SeekInternalKey`: the smallest internal key of a user key. -/
def seekInternalKey (userKey : Bytes) : InternalKey :=
  makeInternalKey userKey ((2 ^ 64 - 1) / 256) 255

/-- `CompareInternalKeys`. -/
def compareInternalKeys (first second : InternalKey) : Int :=
  let common := Slice.memcmp first.userKey second.userKey
    (min first.userKey.length second.userKey.length)
  if common ≠ 0 then (if common < 0 then -1 else 1)
  else if first.userKey.length ≠ second.userKey.length then
    (if first.userKey.length < second.userKey.length then -1 else 1)
  else if first.userKey.length = 0 then 0
  else if first.trailer ≠ second.trailer then
    (if first.trailer < second.trailer then -1 else 1)
  else 0

/-- `CompareInternalKeys` orders by user key and, unless the user key is empty, by
trailer. -/
theorem compareInternalKeys_neg_iff (first second : InternalKey) :
    compareInternalKeys first second < 0 ↔
      first.userKey < second.userKey ∨
        first.userKey = second.userKey ∧ first.userKey ≠ [] ∧
          first.trailer < second.trailer := by
  have less := Slice.compare_neg_iff first.userKey second.userKey
  have equal := Slice.compare_eq_zero_iff first.userKey second.userKey
  unfold Slice.compare at less equal
  unfold compareInternalKeys
  dsimp only at less equal ⊢
  rw [← less, ← equal, ← length_pos_iff]
  split_ifs <;> omega

/-! ## Packed entries -/

/-- What a flush sorts and a table stores: an internal key and a value. -/
structure KeyedValue where
  internalKey : InternalKey
  value : Bytes
  deriving DecidableEq, Repr

/-- The packed form of a version. -/
def Entry.pack (entry : Entry) : KeyedValue :=
  ⟨makeInternalKey entry.key entry.seq entry.type.byte, entry.value⟩

/-- `ExtractUserKey`, `ExtractSeq` and `ExtractType` of a packed version. -/
def KeyedValue.unpack (stored : KeyedValue) : Entry where
  key := stored.internalKey.userKey
  seq := unpackInternalSeq stored.internalKey.trailer
  type := .ofByte (unpackInternalType stored.internalKey.trailer)
  value := stored.value

/-- A version survives packing as long as its sequence number has 56 bits. -/
theorem Entry.unpack_pack {entry : Entry} (bounded : entry.seq < 2 ^ 56) :
    entry.pack.unpack = entry := by
  obtain ⟨_, seq, type, _⟩ := entry
  have seq_eq := unpackInternalSeq_pack bounded type
  have type_eq := unpackInternalType_pack seq type
  simp only [Entry.pack, KeyedValue.unpack, makeInternalKey, seq_eq, type_eq]
  cases type <;> rfl

/-- The comparator of the flush. -/
def internalKeyLess (first second : KeyedValue) : Bool :=
  decide (compareInternalKeys first.internalKey second.internalKey < 0)

theorem internalKeyLess_eq_false_iff {first second : KeyedValue} :
    internalKeyLess second first = false ↔
      first.internalKey.userKey < second.internalKey.userKey ∨
        first.internalKey.userKey = second.internalKey.userKey ∧
          (first.internalKey.userKey = [] ∨
            first.internalKey.trailer ≤ second.internalKey.trailer) := by
  unfold internalKeyLess
  rw [decide_eq_false_iff_not, compareInternalKeys_neg_iff]
  rcases lt_trichotomy first.internalKey.userKey second.internalKey.userKey with
    below | same | above
  · have apart : second.internalKey.userKey ≠ first.internalKey.userKey := ne_of_gt below
    simp [below, apart, le_of_lt below]
  · by_cases empty : second.internalKey.userKey = [] <;> simp [same, empty]
  · have apart : first.internalKey.userKey ≠ second.internalKey.userKey := ne_of_gt above
    simp [above, apart, le_of_lt above]

theorem internalKeyLess_strictWeak : StrictWeak internalKeyLess where
  trans first second third := by
    simp only [internalKeyLess_eq_false_iff]
    rintro (below | ⟨same, order⟩) (also | ⟨equal, further⟩)
    · exact .inl (lt_trans below also)
    · exact .inl (equal ▸ below)
    · exact .inl (same ▸ also)
    · refine .inr ⟨same.trans equal, ?_⟩
      rcases order with empty | order
      · exact .inl empty
      · rcases further with empty | further
        · exact .inl (same.trans empty)
        · exact .inr (le_trans order further)
  total first second := by
    simp only [internalKeyLess_eq_false_iff]
    rcases lt_trichotomy first.internalKey.userKey second.internalKey.userKey with
      below | same | above
    · exact .inl (.inl below)
    · rcases le_total first.internalKey.trailer second.internalKey.trailer with order | order
      · exact .inl (.inr ⟨same, .inr order⟩)
      · exact .inr (.inr ⟨same.symm, .inr order⟩)
    · exact .inr (.inl above)

/-- Versions that are not out of order for the comparator are in the order of their
ranks, if the key is not empty. -/
theorem Entry.before_of_internalKeyLess (nonempty : first.key ≠ [])
    (first_bounded : first.seq < 2 ^ 56) (second_bounded : second.seq < 2 ^ 56)
    (ordered : internalKeyLess second.pack first.pack = false) :
    Before Entry.key Entry.rank first second := by
  rw [internalKeyLess_eq_false_iff] at ordered
  rcases ordered with below | ⟨same, empty | order⟩
  · exact .inl below
  · exact absurd empty nonempty
  · refine .inr ⟨same, ?_⟩
    have second_byte := second.type.byte_le_one
    simp only [Entry.pack, makeInternalKey, packInternalTrailer] at order
    unfold Entry.rank
    omega

/-- The sorted packed versions, read back. -/
def sortEntries (sorter : StdSort internalKeyLess) (entries : List Entry) : List Entry :=
  (sorter.sort (entries.map Entry.pack)).map KeyedValue.unpack

section SortEntries

variable (sorter : StdSort internalKeyLess) {entries : List Entry}

section

variable (bounded : ∀ entry ∈ entries, entry.seq < 2 ^ 56)
include bounded

theorem sortEntries_perm : (sortEntries sorter entries).Perm entries := by
  have rearranged := (sorter.perm (entries.map Entry.pack)).map KeyedValue.unpack
  rw [map_map] at rearranged
  have restored : entries.map (KeyedValue.unpack ∘ Entry.pack) = entries := by
    refine (map_congr_left ?_).trans (map_id entries)
    intro entry member
    exact Entry.unpack_pack (bounded entry member)
  rwa [restored] at rearranged

/-- Sorting puts the newest version of each key first. -/
theorem sortEntries_sorted (nonempty : ∀ entry ∈ entries, entry.key ≠ []) :
    Sorted Entry.key Entry.rank (sortEntries sorter entries) := by
  refine pairwise_map.mpr ?_
  refine (List.Pairwise.and_mem.mp (sorter.ordered (entries.map Entry.pack))).imp ?_
  rintro _ _ ⟨in_first, in_second, ordered⟩
  obtain ⟨entry, member, rfl⟩ := mem_map.mp (sorter.mem_sort.mp in_first)
  obtain ⟨other, inside, rfl⟩ := mem_map.mp (sorter.mem_sort.mp in_second)
  rw [Entry.unpack_pack (bounded entry member), Entry.unpack_pack (bounded other inside)]
  exact Entry.before_of_internalKeyLess (nonempty entry member) (bounded entry member)
    (bounded other inside) ordered

end

/-- Sorting keeps the keys, also where a sequence number does not fit. -/
theorem exists_of_mem_sortEntries (member : entry ∈ sortEntries sorter entries) :
    ∃ original ∈ entries, original.key = entry.key := by
  obtain ⟨_, listed, rfl⟩ := mem_map.mp member
  obtain ⟨original, inside, rfl⟩ := mem_map.mp (sorter.mem_sort.mp listed)
  exact ⟨original, inside, rfl⟩

/-- The keys behind a sort are in order. -/
theorem keySorted_sortEntries : KeySorted Entry.key (sortEntries sorter entries) := by
  refine pairwise_map.mpr ((sorter.ordered (entries.map Entry.pack)).imp ?_)
  intro first second ordered
  rcases internalKeyLess_eq_false_iff.mp ordered with below | ⟨same, _⟩
  · exact le_of_lt below
  · exact le_of_eq same

end SortEntries

end LightKV
