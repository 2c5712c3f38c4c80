import LightKV.InternalKey

/-!
# Writing a table

`TableBuilder` receives versions in order and cuts them into blocks. For the engine above
it three things come out of this: the versions as a reader of the finished table will see
them, the Bloom filter over their user keys, and the sizes on which a compaction decides
to start its next output. The bytes of the blocks are therefore counted here and not
spelled out; every length that goes into the count is the one the source writes.
-/

namespace LightKV

open List

/-- The fields of `Options` that the storage engine reads. -/
structure Options where
  memtableSize : Nat := 64 * 1024 * 1024
  blockSize : Nat := 4 * 1024
  l0FileNumTrigger : Nat := 4
  levelMultiplier : Nat := 10
  l0CompactionMaxFiles : Nat := 0
  bloomBitsPerKey : Nat := 10
  restartInterval : Nat := 16
  valueThreshold : Nat := 64 * 1024
  vlogFileSizeLimit : Nat := 512 * 1024 * 1024
  deriving DecidableEq, Repr

/-! ## Bloom filter -/

/-- `Slice::Hash`. -/
def Slice.hash (key : Bytes) : UInt32 :=
  key.foldl (fun hash byte => (hash ^^^ byte.toUInt32) * 0x01000193) 0x811C9DC5

/-- The filter as the positions of its set bits, with the number of probes `k_`. -/
structure BloomFilter where
  k : Nat
  bits : List Nat
  deriving DecidableEq, Repr

namespace BloomFilter

/-- The filter always has 1024 words of 32 bits. -/
def totalBits : Nat := 1024 * 32

/-- `BloomFilter::BloomFilter`: an empty filter. The option is a `size_t` and the parameter an
`int`, so that from `2 ^ 31` on it may be negative. Below the cap of 30 the product with
`0.69` is never a whole number, so the truncated product is this quotient. -/
def new (bitsPerKey : Nat) : BloomFilter :=
  let narrowed := bitsPerKey % 2 ^ 32
  ⟨if narrowed < 2 ^ 31 then min 30 (max 1 (narrowed * 69 / 100)) else 1, []⟩

theorem k_new_le : (new bitsPerKey).k ≤ 30 := by
  unfold new
  dsimp only
  split <;> omega

/-- The positions probed for a hash. -/
def probes : Nat → UInt32 → UInt32 → List Nat
  | 0, _, _ => []
  | count + 1, hash, delta => hash.toNat % totalBits :: probes count (hash + delta) delta

/-- The positions probed for a key. -/
def positions (filter : BloomFilter) (key : Bytes) : List Nat :=
  let hash := Slice.hash key
  probes filter.k hash ((hash >>> 17) ||| (hash <<< 15))

/-- `BloomFilter::Add`. -/
def add (filter : BloomFilter) (key : Bytes) : BloomFilter :=
  { filter with bits := filter.positions key ++ filter.bits }

/-- `BloomFilter::MayMatch`. -/
def mayMatch (filter : BloomFilter) (key : Bytes) : Bool :=
  (filter.positions key).all fun position => filter.bits.contains position

theorem mayMatch_add_self {filter : BloomFilter} : (filter.add key).mayMatch key = true := by
  apply all_eq_true.mpr
  intro position member
  have kept : position ∈ filter.positions key := member
  simp [add, kept]

/-- A key that matched still matches after another one was added. -/
theorem mayMatch_add {filter : BloomFilter}
    (matched : filter.mayMatch key = true) : (filter.add other).mayMatch key = true := by
  apply all_eq_true.mpr
  intro position member
  have present := all_eq_true.mp matched position member
  rw [contains_iff_mem] at present ⊢
  exact mem_append_right _ present

end BloomFilter

/-! ## Blocks -/

/-- The length of a number below `2 ^ 70` as a varint. -/
def varintLengthUpTo : Nat → Nat → Nat
  | 0, _ => 0
  | fuel + 1, number => if number < 128 then 1 else varintLengthUpTo fuel (number / 128) + 1

/-- `VarintLength`, and the length `PutVarint64` writes. -/
def varintLength (number : Nat) : Nat :=
  varintLengthUpTo 10 number

/-- `EncodeFixed64BE`. -/
def encodeFixed64BE (number : Nat) : Bytes :=
  [56, 48, 40, 32, 24, 16, 8, 0].map fun shift => UInt8.ofNat (number / 2 ^ shift)

/-- An internal key as the bytes in a block. -/
def InternalKey.bytes (internalKey : InternalKey) : Bytes :=
  internalKey.userKey ++ encodeFixed64BE internalKey.trailer

/-- The number of leading bytes two keys share. -/
def sharedPrefix : Bytes → Bytes → Nat
  | first :: firsts, second :: seconds =>
      if first = second then sharedPrefix firsts seconds + 1 else 0
  | _, _ => 0

/-- `BlockBuilder`, with its buffer by size. -/
structure BlockBuilder where
  restartInterval : Nat
  bufferSize : Nat
  restarts : Nat
  counter : Nat
  lastKey : Bytes
  deriving DecidableEq, Repr

namespace BlockBuilder

/-- A block builder without entries; `Reset` returns to it. -/
def new (restartInterval : Nat) : BlockBuilder :=
  ⟨restartInterval, 0, 1, 0, []⟩

/-- `BlockBuilder::Add` for a value of the given size. -/
def add (block : BlockBuilder) (key : Bytes) (valueSize : Nat) : BlockBuilder :=
  let continued := decide (block.counter < block.restartInterval)
  let shared := if continued then sharedPrefix block.lastKey key else 0
  let nonShared := key.length - shared
  { restartInterval := block.restartInterval
    bufferSize := block.bufferSize + varintLength shared + varintLength nonShared +
      varintLength valueSize + nonShared + valueSize
    restarts := if continued then block.restarts else block.restarts + 1
    counter := (if continued then block.counter else 0) + 1
    lastKey := key }

/-- `BlockBuilder::CurrentSizeEstimate`. -/
def currentSizeEstimate (block : BlockBuilder) : Nat :=
  block.bufferSize + block.restarts * 4 + 4

/-- The size of what `BlockBuilder::Finish` returns: entries, restart points, their
number and a checksum. -/
def finishedSize (block : BlockBuilder) : Nat :=
  block.bufferSize + block.restarts * 4 + 4 + 4

/-- `BlockBuilder::empty`. -/
def empty (block : BlockBuilder) : Bool :=
  decide (block.bufferSize = 0)

end BlockBuilder

/-! ## Tables -/

/-- A finished table: its file number, the versions it holds in their order, the Bloom
filter over their user keys and the size of the file. -/
structure SSTable where
  fileId : Nat
  entries : List Entry
  bloom : BloomFilter
  fileSize : Nat
  deriving DecidableEq, Repr

/-- `TableBuilder`. -/
structure TableBuilder where
  blockSize : Nat
  dataBlock : BlockBuilder
  indexBlock : BlockBuilder
  bloom : BloomFilter
  offset : Nat
  lastKey : Bytes
  entries : List Entry
  deriving DecidableEq, Repr

namespace TableBuilder

variable (builder : TableBuilder) (options : Options) (fileId : Nat)

/-- `TableBuilder::TableBuilder`. The data block is given `block_size` as its restart
interval. -/
def new (options : Options) : TableBuilder where
  blockSize := options.blockSize
  dataBlock := .new options.blockSize
  indexBlock := .new options.restartInterval
  bloom := .new options.bloomBitsPerKey
  offset := 0
  lastKey := []
  entries := []

/-- `TableBuilder::FlushDataBlock`. -/
def flushDataBlock : TableBuilder :=
  if builder.dataBlock.empty then builder
  else
    let size := builder.dataBlock.finishedSize
    { builder with
      dataBlock := .new builder.dataBlock.restartInterval
      indexBlock := builder.indexBlock.add builder.lastKey
        (varintLength builder.offset + varintLength size + 1)
      offset := builder.offset + size }

/-- The part of `TableBuilder::Add` before the block is checked for its size. -/
def append (entry : Entry) : TableBuilder :=
  let internalKey := (makeInternalKey entry.key entry.seq entry.type.byte).bytes
  { builder with
    dataBlock := builder.dataBlock.add internalKey entry.value.length
    bloom := builder.bloom.add entry.key
    lastKey := internalKey
    entries := builder.entries ++ [entry] }

/-- `TableBuilder::Add`. -/
def add (entry : Entry) : TableBuilder :=
  if builder.blockSize ≤ (builder.append entry).dataBlock.currentSizeEstimate then
    (builder.append entry).flushDataBlock
  else builder.append entry

/-- `TableBuilder::FileSize` while the table is being written. -/
def fileSize : Nat :=
  builder.offset

/-- `TableBuilder::Finish`: the last block, the filter, the index and the footer. -/
def finish (builder : TableBuilder) (fileId : Nat) : SSTable where
  fileId := fileId
  entries := builder.flushDataBlock.entries
  bloom := builder.flushDataBlock.bloom
  fileSize := builder.flushDataBlock.offset + BloomFilter.totalBits / 8 +
    builder.flushDataBlock.indexBlock.finishedSize + 24

@[simp] theorem entries_flushDataBlock : builder.flushDataBlock.entries = builder.entries := by
  unfold flushDataBlock
  split <;> rfl

@[simp] theorem bloom_flushDataBlock : builder.flushDataBlock.bloom = builder.bloom := by
  unfold flushDataBlock
  split <;> rfl

@[simp] theorem entries_new : (new options).entries = [] := rfl

@[simp] theorem entries_add :
    (builder.add entry).entries = builder.entries ++ [entry] := by
  unfold add
  split
  · rw [entries_flushDataBlock]
    rfl
  · rfl

@[simp] theorem bloom_add : (builder.add entry).bloom = builder.bloom.add entry.key := by
  unfold add
  split
  · rw [bloom_flushDataBlock]
    rfl
  · rfl

@[simp] theorem entries_finish : (builder.finish fileId).entries = builder.entries :=
  builder.entries_flushDataBlock

@[simp] theorem bloom_finish : (builder.finish fileId).bloom = builder.bloom :=
  builder.bloom_flushDataBlock

@[simp] theorem fileId_finish : (builder.finish fileId).fileId = fileId := rfl

/-- Every key of the builder is in its filter. -/
def Filtered (builder : TableBuilder) : Prop :=
  ∀ entry ∈ builder.entries, builder.bloom.mayMatch entry.key = true

theorem filtered_new : (new options).Filtered := by
  intro _ member
  simp at member

theorem Filtered.add {builder : TableBuilder} (filtered : builder.Filtered) :
    (builder.add entry).Filtered := by
  intro other member
  rw [entries_add, mem_append, mem_singleton] at member
  rw [bloom_add]
  rcases member with old | rfl
  · exact BloomFilter.mayMatch_add (filtered other old)
  · exact BloomFilter.mayMatch_add_self

/-- A table written from a list of versions. -/
def build (options : Options) (fileId : Nat) (entries : List Entry) : SSTable :=
  (entries.foldl add (new options)).finish fileId

theorem entries_foldl_add {entries : List Entry} :
    (entries.foldl add builder).entries = builder.entries ++ entries := by
  induction entries generalizing builder with
  | nil => simp
  | cons _ _ ih => simp [ih]

theorem Filtered.foldl_add {builder : TableBuilder} (filtered : builder.Filtered)
    (entries : List Entry) : (entries.foldl TableBuilder.add builder).Filtered :=
  foldlRecOn _ _ filtered fun _ filtered _ _ => filtered.add

@[simp] theorem entries_build (entries : List Entry) :
    (build options fileId entries).entries = entries := by
  simp [build, entries_foldl_add]

/-- A long key is in the file as soon as its version is added. -/
theorem le_fileSize_add (entry : Entry) (long : options.blockSize ≤ entry.key.length) :
    entry.key.length ≤ ((new options).add entry).fileSize := by
  have block : ∀ (interval : Nat) (key : Bytes) (size : Nat),
      key.length ≤ ((BlockBuilder.new interval).add key size).bufferSize := by
    intro _ key _
    have unshared : sharedPrefix [] key = 0 := by cases key <;> rfl
    simp only [BlockBuilder.add, BlockBuilder.new, unshared, ite_self]
    omega
  have written : entry.key.length + 8 ≤ ((new options).append entry).dataBlock.bufferSize := by
    have filled := block options.blockSize
      (makeInternalKey entry.key entry.seq entry.type.byte).bytes entry.value.length
    simp only [InternalKey.bytes, length_append] at filled
    exact filled
  unfold add
  rw [if_pos]
  · unfold flushDataBlock BlockBuilder.empty
    rw [if_neg (by rw [decide_eq_true_eq]; omega)]
    change _ ≤ 0 + ((new options).append entry).dataBlock.finishedSize
    unfold BlockBuilder.finishedSize
    omega
  · change options.blockSize ≤ _
    unfold BlockBuilder.currentSizeEstimate
    omega

end TableBuilder

end LightKV
