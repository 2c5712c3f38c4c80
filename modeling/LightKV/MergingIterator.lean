import Mathlib.Algebra.Order.BigOperators.Group.List
import Mathlib.Algebra.Order.Group.Nat
import Mathlib.Data.Prod.Lex
import LightKV.SSTable

/-!
# The merging iterator

`MergingIterator` walks several sources at once. Each source is sorted by key and, within
a key, from the highest sequence number down. The iterator stands on the source whose
head comes first: the smallest key, then the highest sequence number, then the most
recent source, then the first one. `SkipUnreadable` moves on while the version it stands
on must not be shown: a version above the snapshot is dropped alone, so that an older one
of its key can surface; a deletion, and a version below a range tombstone, end their key.

What a reader may see is stated on the sources alone. `Foremost` says that a version is the
newest of its key at the snapshot, with the same preference among equally new ones, and
`Shown` that it is a value that no tombstone hides. The walk yields these versions in the
order of their keys: no step that skips versions changes which of the versions still
ahead are shown, and a version the iterator stops at is the shown one with the smallest
key.
-/

namespace LightKV

open Versions Function
open List hiding below head

/-! ## Sources -/

/-- A `SourceIterator`: the versions of a memtable or a table, and those from the current
position on. -/
structure MergeSource where
  recency : Int
  entries : List Entry
  rest : List Entry
  deriving DecidableEq, Repr

namespace MergeSource

/-- `SourceIterator::SeekToFirst`. -/
def seekToFirst (source : MergeSource) : MergeSource :=
  { source with rest := source.entries }

/-- `SourceIterator::Seek`: to the first version whose key is not below the target. -/
def seek (target : Bytes) (source : MergeSource) : MergeSource :=
  { source with rest := fromKey Entry.key target source.entries }

/-- `SourceIterator::Next`. -/
def next (source : MergeSource) : MergeSource :=
  { source with rest := source.rest.tail }

/-- `Next` while the source stands on the key. -/
def skipKey (key : Bytes) (source : MergeSource) : MergeSource :=
  { source with rest := source.rest.dropWhile fun entry => decide (entry.key = key) }

end MergeSource

/-- `MergingIterator::Compare`, for the heads of two sources. -/
def compareHeads (first second : Entry × Int) : Int :=
  let cmp := Slice.compare first.1.key second.1.key
  if cmp ≠ 0 then cmp
  else if second.1.seq < first.1.seq then -1
  else if first.1.seq < second.1.seq then 1
  else if second.2 < first.2 then -1
  else if first.2 < second.2 then 1
  else 0

/-- The head of the source at a position, with the recency of the source. -/
def headAt (sources : List MergeSource) (index : Nat) : Option (Entry × Int) :=
  sources[index]?.bind fun source => source.rest.head?.map fun entry => (entry, source.recency)

/-- One round of the loop of `FindMinimum`. -/
def smaller (sources : List MergeSource) (best : Option Nat) (index : Nat) : Option Nat :=
  match headAt sources index with
  | none => best
  | some head =>
      match best.bind (headAt sources) with
      | none => some index
      | some least => if compareHeads head least < 0 then some index else best

/-- `MergingIterator::FindMinimum`. -/
def findMinimum (sources : List MergeSource) : Option Nat :=
  (List.range sources.length).foldl (smaller sources) none

/-! ## The iterator -/

/-- `MergingIterator`. -/
structure MergingIterator where
  sources : List MergeSource
  rangeTombstones : List RangeTombstone
  current : Option Nat
  deriving DecidableEq, Repr

namespace MergingIterator

variable (iterator : MergingIterator)

/-- `MergingIterator::Valid`. -/
def valid : Bool :=
  iterator.current.isSome

/-- The version the iterator stands on. -/
def currentEntry : Option Entry :=
  (iterator.current.bind (headAt iterator.sources)).map Prod.fst

/-- Move the sources and look for the smallest head again. -/
def reposition (sources : List MergeSource) : MergingIterator :=
  { iterator with sources := sources, current := findMinimum sources }

/-- Drop the version the iterator stands on. -/
def dropCurrent : MergingIterator :=
  iterator.reposition
    (iterator.sources.mapIdx fun index source =>
      if iterator.current = some index then source.next else source)

/-- `MergingIterator::SkipAllOnKey`. -/
def skipAllOnKey (key : Bytes) : MergingIterator :=
  iterator.reposition (iterator.sources.map (MergeSource.skipKey key))

/-- The loop of `MergingIterator::SkipUnreadable`. -/
def skipLoop (snapshot : Nat) : Nat → MergingIterator → MergingIterator
  | 0, iterator => iterator
  | fuel + 1, iterator =>
      match iterator.currentEntry with
      | none => iterator
      | some entry =>
          if snapshot < entry.seq then skipLoop snapshot fuel iterator.dropCurrent
          else if reserved entry.key then
            skipLoop snapshot fuel
              ({ iterator with
                rangeTombstones := iterator.rangeTombstones ++ [SSTable.tombstoneOf entry] }
                |>.skipAllOnKey entry.key)
          else if entry.type = .deletion then
            skipLoop snapshot fuel (iterator.skipAllOnKey entry.key)
          else if covered iterator.rangeTombstones entry.key entry.seq snapshot then
            skipLoop snapshot fuel (iterator.skipAllOnKey entry.key)
          else iterator

/-- The number of versions from the current positions on. -/
def remaining : Nat :=
  (iterator.sources.map fun source => source.rest.length).sum

/-- `MergingIterator::SkipUnreadable`. Each round moves a source, so the number of versions
is enough fuel. -/
def skipUnreadable (snapshot : Nat) : MergingIterator :=
  skipLoop snapshot iterator.remaining iterator

/-- `MergingIterator::SeekToFirst`. -/
def seekToFirst (snapshot : Nat) : MergingIterator :=
  (iterator.reposition (iterator.sources.map MergeSource.seekToFirst)).skipUnreadable snapshot

/-- `MergingIterator::Seek`. -/
def seek (target : Bytes) (snapshot : Nat) : MergingIterator :=
  (iterator.reposition (iterator.sources.map (MergeSource.seek target))).skipUnreadable snapshot

/-- `MergingIterator::Next`. -/
def next (snapshot : Nat) : MergingIterator :=
  match iterator.currentEntry with
  | none => iterator
  | some entry => (iterator.skipAllOnKey entry.key).skipUnreadable snapshot

/-- Read the current version and call `Next`, for at most the given number of times. -/
def walk (snapshot : Nat) : Nat → MergingIterator → List Entry × MergingIterator
  | 0, iterator => ([], iterator)
  | steps + 1, iterator =>
      match iterator.currentEntry with
      | none => ([], iterator)
      | some entry =>
          let walked := walk snapshot steps (iterator.next snapshot)
          (entry :: walked.1, walked.2)

end MergingIterator

/-! ## What a reader may see -/

/-- Versions with the recency of their source. -/
structure Run where
  recency : Int
  versions : List Entry

/-- The versions of a key that the snapshot sees in the run at a position, with the recency of
the run. -/
def seenAt (snapshot : Nat) (key : Bytes) (runs : List Run) (index : Nat) :
    Option (Int × List Entry) :=
  runs[index]?.map fun run => (run.recency, run.versions.filter fun entry =>
    decide (entry.key = key) && decide (entry.seq ≤ snapshot))

/-- The version is the newest of its key that the snapshot sees in any run. Among versions
with one sequence number the one of the most recent run counts, then the one of the first
run, and within a run the first one. -/
def Foremost (snapshot : Nat) (runs : List Run) (index : Nat) (entry : Entry) : Prop :=
  ∃ recency older, seenAt snapshot entry.key runs index = some (recency, entry :: older) ∧
    ∀ other otherRecency versions,
      seenAt snapshot entry.key runs other = some (otherRecency, versions) →
        ∀ version ∈ versions, version.seq < entry.seq ∨ version.seq = entry.seq ∧
          (otherRecency < recency ∨ otherRecency = recency ∧ index ≤ other)

/-- A reader at the snapshot is shown the version: it is the newest of its key, a value, and
not hidden by a range tombstone. -/
def Shown (snapshot : Nat) (tombstones : List RangeTombstone) (runs : List Run)
    (entry : Entry) : Prop :=
  (∃ index, Foremost snapshot runs index entry) ∧ entry.type = .value ∧
    covered tombstones entry.key entry.seq snapshot = false

section Runs

variable {snapshot : Nat} {tombstones : List RangeTombstone} {runs others : List Run}
  {index other : Nat} {entry first second : Entry}

/-- Only what the snapshot sees of the key counts. -/
theorem shown_congr (same : ∀ index, seenAt snapshot entry.key runs index =
    seenAt snapshot entry.key others index) :
    Shown snapshot tombstones runs entry ↔ Shown snapshot tombstones others entry := by
  simp only [Shown, Foremost, same]

/-- A key has one newest version. -/
theorem Foremost.unique (leads : Foremost snapshot runs index first)
    (also : Foremost snapshot runs other second) (same : first.key = second.key) :
    first = second := by
  obtain ⟨recency, _, seen, best⟩ := leads
  obtain ⟨otherRecency, _, other_seen, other_best⟩ := also
  rw [← same] at other_seen other_best
  have below := best other otherRecency _ other_seen second mem_cons_self
  have above := other_best index recency _ seen first mem_cons_self
  have equal : index = other := by omega
  rw [equal, other_seen] at seen
  simp only [Option.some.injEq, Prod.mk.injEq, cons.injEq] at seen
  exact seen.2.1.symm

/-- The newest version is a version of the run it leads in. -/
theorem Foremost.mem (leads : Foremost snapshot runs index entry) :
    ∃ run ∈ runs, entry ∈ run.versions := by
  obtain ⟨_, _, seen, _⟩ := leads
  obtain ⟨run, at_index, seen_eq⟩ := Option.map_eq_some_iff.mp seen
  have inside : entry ∈ run.versions.filter fun other =>
      decide (other.key = entry.key) && decide (other.seq ≤ snapshot) := by
    rw [(Prod.mk.inj seen_eq).2]
    exact mem_cons_self
  simp only [mem_filter] at inside
  exact ⟨run, mem_of_getElem? at_index, inside.1⟩

end Runs

/-! ## The smallest head -/

/-- The first head stands in front of the second. -/
def Ahead (first second : Entry × Int) : Prop :=
  first.1.key < second.1.key ∨ first.1.key = second.1.key ∧
    (second.1.seq < first.1.seq ∨ first.1.seq = second.1.seq ∧ second.2 < first.2)

theorem compareHeads_neg_iff : compareHeads first second < 0 ↔ Ahead first second := by
  have order := Slice.compare_neg_iff first.1.key second.1.key
  have equality := Slice.compare_eq_zero_iff first.1.key second.1.key
  unfold compareHeads Ahead
  dsimp only
  rw [← order, ← equality]
  split_ifs <;> omega

/-- The place of a head in the lexicographic order. -/
def place (head : Entry × Int) : Bytes ×ₗ ℕᵒᵈ ×ₗ ℤᵒᵈ :=
  toLex (head.1.key, toLex (head.1.seq, head.2))

theorem ahead_iff_place_lt : Ahead first second ↔ place first < place second := by
  rw [place, place, Prod.Lex.toLex_lt_toLex, Prod.Lex.toLex_lt_toLex]
  rfl

theorem Ahead.asymm (ahead : Ahead first second) : ¬ Ahead second first := by
  rw [ahead_iff_place_lt] at ahead ⊢
  exact lt_asymm ahead

/-- What is ahead of a head is ahead of everything that is not ahead of this head. -/
theorem Ahead.trans_of_not (ahead : Ahead first second) (bound : ¬ Ahead third second) :
    Ahead first third := by
  rw [ahead_iff_place_lt] at ahead bound ⊢
  exact lt_of_lt_of_le ahead (not_lt.mp bound)

/-- The head at the position is the first of the smallest heads in front of `stop`. -/
structure Least (sources : List MergeSource) (stop index : Nat) (head : Entry × Int) : Prop where
  inside : index < stop
  present : headAt sources index = some head
  smallest : ∀ other < stop, ∀ rival, headAt sources other = some rival → ¬ Ahead rival head
  earliest : ∀ other < index, ∀ rival, headAt sources other = some rival → Ahead head rival

/-- A head that is ahead of all before it becomes the least one. -/
theorem least_of_ahead (here : headAt sources stop = some head)
    (front : ∀ other < stop, ∀ rival, headAt sources other = some rival → Ahead head rival) :
    Least sources (stop + 1) stop head := by
  refine ⟨Nat.lt_succ_self _, here, Nat.forall_lt_succ_right.mpr ⟨?_, ?_⟩, front⟩
  · exact fun other below rival present => (front other below rival present).asymm
  · rintro _ present itself
    rw [here, Option.some.injEq] at present
    exact (present ▸ itself).asymm (present ▸ itself)

/-- One that is not leaves the least one. -/
theorem Least.extend (least : Least sources stop index head)
    (bound : ∀ rival, headAt sources stop = some rival → ¬ Ahead rival head) :
    Least sources (stop + 1) index head :=
  ⟨Nat.lt_succ_of_lt least.inside, least.present,
    Nat.forall_lt_succ_right.mpr ⟨least.smallest, bound⟩, least.earliest⟩

/-- The loop of `FindMinimum` over the first sources. -/
theorem findMinimum_loop (sources : List MergeSource) (stop : Nat) :
    match (range stop).foldl (smaller sources) none with
    | none => ∀ other < stop, headAt sources other = none
    | some best => ∃ head, Least sources stop best head := by
  induction stop with
  | zero => simp
  | succ stop ih =>
    rw [range_succ, foldl_append]
    simp only [foldl_cons, smaller]
    generalize (range stop).foldl _ none = best at ih ⊢
    cases best with
    | none =>
      cases here : headAt sources stop with
      | none => exact Nat.forall_lt_succ_right.mpr ⟨ih, here⟩
      | some head => exact ⟨head, least_of_ahead here fun other below => by simp [ih other below]⟩
    | some _ =>
      obtain ⟨least, found⟩ := ih
      cases here : headAt sources stop with
      | none => exact ⟨least, found.extend (by simp [here])⟩
      | some head =>
        simp only [Option.bind_some, found.present]
        by_cases ahead : Ahead head least
        · rw [if_pos ((compareHeads_neg_iff).mpr ahead)]
          exact ⟨head, least_of_ahead here fun other below rival present =>
            ahead.trans_of_not (found.smallest other below rival present)⟩
        · rw [if_neg (mt compareHeads_neg_iff.mp ahead)]
          exact ⟨least, found.extend (by simpa [here] using ahead)⟩

theorem headAt_of_source (present : sources[index]? = some source)
    (rest_eq : source.rest = entry :: rest) :
    headAt sources index = some (entry, source.recency) := by
  simp [headAt, present, rest_eq]

theorem source_of_headAt (present : headAt sources index = some head) : ∃ source rest,
      sources[index]? = some source ∧ source.rest = head.1 :: rest ∧ source.recency = head.2 := by
  obtain ⟨source, at_index, found⟩ := Option.bind_eq_some_iff.mp present
  obtain ⟨_, front, rfl⟩ := Option.map_eq_some_iff.mp found
  obtain ⟨rest, rest_eq⟩ := head?_eq_some_iff.mp front
  exact ⟨source, rest, at_index, rest_eq, rfl⟩

/-- `FindMinimum` finds a smallest head if there is one. -/
theorem findMinimum_spec (sources : List MergeSource) :
    (findMinimum sources = none ∧ ∀ source ∈ sources, source.rest = []) ∨
      ∃ index head, findMinimum sources = some index ∧
        Least sources sources.length index head := by
  have loop := findMinimum_loop sources sources.length
  change match findMinimum sources with
    | none => _
    | some best => _ at loop
  cases found : findMinimum sources with
  | none =>
    rw [found] at loop
    refine .inl ⟨rfl, ?_⟩
    intro source member
    obtain ⟨index, inside, at_index⟩ := getElem_of_mem member
    cases rest_eq : source.rest with
    | nil => rfl
    | cons _ _ =>
      have present := headAt_of_source
        ((getElem?_eq_getElem inside).trans (congrArg some at_index)) rest_eq
      rw [loop index inside] at present
      cases present
  | some index =>
    rw [found] at loop
    obtain ⟨head, least⟩ := loop
    exact .inr ⟨index, head, rfl, least⟩

/-! ## Standing on a version -/

namespace MergingIterator

/-- What is still ahead of the iterator. -/
def pending (iterator : MergingIterator) : List Run :=
  iterator.sources.map fun source => ⟨source.recency, source.rest⟩

/-- All versions of the sources. -/
def runs (iterator : MergingIterator) : List Run :=
  iterator.sources.map fun source => ⟨source.recency, source.entries⟩

/-- Sources in order, and the iterator on the smallest head. -/
structure Ready (iterator : MergingIterator) : Prop where
  sorted : ∀ source ∈ iterator.sources, Sorted Entry.key Entry.seq source.rest
  current : iterator.current = findMinimum iterator.sources

variable {iterator : MergingIterator} {snapshot : Nat} {entry : Entry}

theorem seenAt_pending :
    seenAt snapshot key iterator.pending index =
      iterator.sources[index]?.map fun source => (source.recency, source.rest.filter fun entry =>
        decide (entry.key = key) && decide (entry.seq ≤ snapshot)) := by
  simp only [seenAt, pending, getElem?_map, Option.map_map]
  rfl

section

variable (ready : Ready iterator)
include ready

/-- An iterator without a current version has nothing ahead. -/
theorem Ready.exhausted (finished : iterator.currentEntry = none) :
    ∀ source ∈ iterator.sources, source.rest = [] := by
  rcases findMinimum_spec iterator.sources with ⟨_, empty⟩ | ⟨_, _, found, least⟩
  · exact empty
  · simp [currentEntry, ready.current, found, least.present] at finished

/-- The current version is the least head. -/
theorem Ready.least (stands : iterator.currentEntry = some entry) :
    ∃ index recency, iterator.current = some index ∧
      Least iterator.sources iterator.sources.length index (entry, recency) := by
  rcases findMinimum_spec iterator.sources with ⟨missing, _⟩ | ⟨index, head, found, least⟩
  · simp [currentEntry, ready.current, missing] at stands
  refine ⟨index, head.2, ready.current.trans found, ?_⟩
  simp only [currentEntry, ready.current, found, Option.bind_some, least.present, Option.map_some,
    Option.some.injEq] at stands
  rw [← stands]
  exact least

/-- Every version ahead is compared with the head of its source and so with the current
version. -/
theorem Ready.bound
    (least : Least iterator.sources iterator.sources.length index (entry, recency))
    (present : iterator.sources[other]? = some source) (ahead : version ∈ source.rest) :
    ∃ head, headAt iterator.sources other = some (head, source.recency) ∧
      Before Entry.key Entry.seq head version ∧
      ¬ Ahead (head, source.recency) (entry, recency) := by
  have inside : other < iterator.sources.length := (List.getElem?_eq_some_iff.mp present).1
  have sorted := ready.sorted source (mem_of_getElem? present)
  cases rest_eq : source.rest with
  | nil => simp [rest_eq] at ahead
  | cons head _ =>
    have front := headAt_of_source present rest_eq
    refine ⟨head, front, ?_, least.smallest other inside _ front⟩
    rw [rest_eq] at ahead sorted
    rcases mem_cons.mp ahead with rfl | behind
    · exact Before.refl
    · exact (pairwise_cons.mp sorted).1 version behind

theorem Ready.key_le (stands : iterator.currentEntry = some entry)
    (member : source ∈ iterator.sources) (ahead : version ∈ source.rest) :
    entry.key ≤ version.key := by
  obtain ⟨_, _, _, least⟩ := ready.least stands
  obtain ⟨_, present⟩ := getElem?_of_mem member
  obtain ⟨_, _, before, not_ahead⟩ := ready.bound least present ahead
  exact le_trans (le_of_not_gt fun below => not_ahead (.inl below)) before.key_le

/-- If the snapshot sees the current version, it is the newest one of its key. -/
theorem Ready.foremost (stands : iterator.currentEntry = some entry) (seen : entry.seq ≤ snapshot) :
    ∃ index, Foremost snapshot iterator.pending index entry := by
  obtain ⟨index, recency, _, least⟩ := ready.least stands
  obtain ⟨_, rest, at_index, rest_eq, recency_eq⟩ := source_of_headAt least.present
  refine ⟨index, recency, rest.filter fun other =>
    decide (other.key = entry.key) && decide (other.seq ≤ snapshot), ?_, ?_⟩
  · rw [seenAt_pending, at_index, Option.map_some, rest_eq, recency_eq,
      filter_cons_of_pos (by simpa using seen)]
  intro other _ _ other_seen version inside
  rw [seenAt_pending] at other_seen
  obtain ⟨otherSource, present, pair⟩ := Option.map_eq_some_iff.mp other_seen
  obtain ⟨rfl, rfl⟩ := Prod.mk.inj pair
  simp only [mem_filter, Bool.and_eq_true, decide_eq_true_eq] at inside
  obtain ⟨ahead, same, _⟩ := inside
  obtain ⟨head, front, before, not_ahead⟩ := ready.bound least present ahead
  -- The head of that source has the key too, since it is neither smaller nor larger.
  have not_below : ¬ head.key < entry.key := fun below => not_ahead (.inl below)
  have head_key : head.key = entry.key :=
    le_antisymm (same ▸ before.key_le) (le_of_not_gt not_below)
  have older := before.rank_le (head_key.trans same.symm)
  have not_newer : ¬ (entry.seq < head.seq ∨
      head.seq = entry.seq ∧ recency < otherSource.recency) :=
    fun newer => not_ahead (.inr ⟨head_key, newer⟩)
  rcases lt_or_ge version.seq entry.seq with below | _
  · exact .inl below
  rcases lt_or_ge other index with earlier | _
  · have ahead_of := least.earliest other earlier _ front
    rcases ahead_of with below | ⟨_, newer⟩
    · exact absurd head_key.symm (ne_of_lt below)
    · dsimp only at newer
      omega
  · omega

/-! ## Skipping -/

/-- Moving the sources keeps them in order as long as they only give up versions. -/
theorem Ready.reposition {sources : List MergeSource}
    (fewer : ∀ source ∈ sources, ∃ before ∈ iterator.sources, source.rest.Sublist before.rest) :
    Ready (iterator.reposition sources) := by
  refine ⟨?_, rfl⟩
  intro source member
  obtain ⟨before, in_before, sublist⟩ := fewer source member
  exact (ready.sorted before in_before).sublist sublist

theorem Ready.skipAllOnKey (key : Bytes) : Ready (iterator.skipAllOnKey key) := by
  apply ready.reposition
  intro _ member
  obtain ⟨before, in_before, rfl⟩ := mem_map.mp member
  exact ⟨before, in_before, dropWhile_sublist _⟩

theorem Ready.dropCurrent : Ready iterator.dropCurrent := by
  apply ready.reposition
  intro _ member
  obtain ⟨index, inside, rfl⟩ := mem_mapIdx.mp member
  refine ⟨iterator.sources[index], getElem_mem inside, ?_⟩
  split
  · exact tail_sublist _
  · exact List.Sublist.refl _

end

/-- Skipping a key leaves what is ahead of the other keys. -/
theorem seenAt_skipAllOnKey
    (different : key ≠ skipped) (index : Nat) :
    seenAt snapshot key (iterator.skipAllOnKey skipped).pending index =
      seenAt snapshot key iterator.pending index := by
  have kept : ∀ entries : List Entry,
      (entries.dropWhile fun entry => decide (entry.key = skipped)).filter (fun entry =>
          decide (entry.key = key) && decide (entry.seq ≤ snapshot)) =
        entries.filter fun entry => decide (entry.key = key) && decide (entry.seq ≤ snapshot) := by
    intro entries
    induction entries with
    | nil => rfl
    | cons entry _ ih =>
      by_cases same : entry.key = skipped
      · rw [dropWhile_cons_of_pos (by simpa using same), ih]
        simp [same, different.symm]
      · rw [dropWhile_cons_of_neg (by simpa using same)]
  simp only [seenAt_pending, MergingIterator.skipAllOnKey, MergingIterator.reposition,
    getElem?_map, Option.map_map]
  congr 1
  funext source
  simp only [comp_apply, MergeSource.skipKey, kept]

/-- Dropping a version above the snapshot changes nothing the snapshot sees. -/
theorem Ready.seenAt_dropCurrent (ready : Ready iterator)
    (stands : iterator.currentEntry = some entry) (above : snapshot < entry.seq) (index : Nat) :
    seenAt snapshot key iterator.dropCurrent.pending index =
      seenAt snapshot key iterator.pending index := by
  obtain ⟨current, _, current_eq, least⟩ := ready.least stands
  obtain ⟨_, _, at_index, rest_eq, _⟩ := source_of_headAt least.present
  simp only [seenAt_pending, MergingIterator.dropCurrent, MergingIterator.reposition,
    getElem?_mapIdx, Option.map_map]
  by_cases here : index = current
  · subst here
    rw [at_index]
    simp only [Option.map_some, comp_apply, current_eq, if_true, MergeSource.next,
      rest_eq, tail_cons]
    rw [filter_cons_of_neg (by simp; omega)]
  congr 1
  funext other
  rw [comp_apply, if_neg]
  rw [current_eq]
  exact fun same => here (Option.some.inj same).symm

/-- In versions sorted from a key on, those of the key are all in front. -/
theorem key_lt_of_mem_dropWhile (sorted : KeySorted Entry.key entries)
    (reached : ∀ entry ∈ entries, key ≤ entry.key) :
    ∀ entry ∈ entries.dropWhile fun entry => decide (entry.key = key), key < entry.key := by
  induction entries with
  | nil => exact fun _ => nofun
  | cons head _ ih =>
    obtain ⟨first, later⟩ := pairwise_cons.mp sorted
    obtain ⟨head_le, rest_le⟩ := forall_mem_cons.mp reached
    by_cases same : head.key = key
    · rw [dropWhile_cons_of_pos (by simpa using same)]
      exact ih later rest_le
    · rw [dropWhile_cons_of_neg (by simpa using same)]
      have above := lt_of_le_of_ne head_le (Ne.symm same)
      exact forall_mem_cons.mpr ⟨above, fun entry behind => lt_of_lt_of_le above
        (first entry behind)⟩

section

variable (ready : Ready iterator) (stands : iterator.currentEntry = some entry)
include ready stands

/-- Behind a skip of the current key everything ahead has a larger key. -/
theorem Ready.key_lt_of_skipped
    (member : source ∈ (iterator.skipAllOnKey entry.key).sources) (ahead : version ∈ source.rest) :
    entry.key < version.key := by
  obtain ⟨before, in_before, rfl⟩ := mem_map.mp member
  exact key_lt_of_mem_dropWhile (ready.sorted before in_before).keySorted
    (fun _ inside => ready.key_le stands in_before inside) version ahead

/-- A source that stands on the key gives up a version. -/
theorem Ready.remaining_skipAllOnKey :
    (iterator.skipAllOnKey entry.key).remaining < iterator.remaining := by
  obtain ⟨_, _, _, least⟩ := ready.least stands
  obtain ⟨source, _, at_index, rest_eq, _⟩ := source_of_headAt least.present
  simp only [remaining, MergingIterator.skipAllOnKey, MergingIterator.reposition, map_map]
  apply sum_lt_sum
  · intro _ _
    exact (dropWhile_sublist _).length_le
  · refine ⟨source, mem_of_getElem? at_index, ?_⟩
    simp only [comp_apply, MergeSource.skipKey, rest_eq]
    rw [dropWhile_cons_of_pos (by simp)]
    exact Nat.lt_succ_of_le (dropWhile_sublist _).length_le

theorem Ready.remaining_dropCurrent : iterator.dropCurrent.remaining < iterator.remaining := by
  obtain ⟨index, _, current_eq, least⟩ := ready.least stands
  obtain ⟨_, _, at_index, rest_eq, _⟩ := source_of_headAt least.present
  have moved : (iterator.sources.mapIdx fun position source =>
      if iterator.current = some position then source.next else source) =
      iterator.sources.modify index .next := by
    apply ext_getElem?
    simp [getElem?_mapIdx, getElem?_modify, current_eq]
  obtain ⟨inside, source_eq⟩ := List.getElem?_eq_some_iff.mp at_index
  rw [remaining, remaining, MergingIterator.dropCurrent, MergingIterator.reposition, moved,
    modify_eq_take_cons_drop inside]
  conv_rhs => rw [← take_append_drop index iterator.sources, drop_eq_getElem_cons inside]
  simp [source_eq, MergeSource.next, rest_eq]

end

/-- What the snapshot is shown of the versions ahead. A stored tombstone is no version. -/
def ShownAhead (snapshot : Nat) (iterator : MergingIterator) (entry : Entry) : Prop :=
  Shown snapshot iterator.rangeTombstones iterator.pending entry ∧ reserved entry.key = false

theorem ShownAhead.ahead (shown : ShownAhead snapshot iterator entry) :
    ∃ source ∈ iterator.sources, entry ∈ source.rest := by
  obtain ⟨⟨⟨_, leads⟩, _⟩, _⟩ := shown
  obtain ⟨_, member, inside⟩ := leads.mem
  obtain ⟨source, in_sources, rfl⟩ := mem_map.mp member
  exact ⟨source, in_sources, inside⟩

section

variable (ready : Ready iterator) (stands : iterator.currentEntry = some entry)
include ready stands

/-- The keys of stored tombstones come last: at one of them nothing else is ahead. -/
theorem Ready.not_shown_of_reserved (marked : reserved entry.key = true) :
    ¬ ShownAhead snapshot iterator other := by
  intro shown
  obtain ⟨_, member, inside⟩ := shown.ahead
  have behind := le_trans ((marker_le_iff entry.key).mpr marked) (ready.key_le stands member inside)
  exact absurd shown.2 (by simp [(marker_le_iff other.key).mp behind])

theorem Ready.eq_of_shown (seen : entry.seq ≤ snapshot) (shown : ShownAhead snapshot iterator other)
    (same : other.key = entry.key) : other = entry := by
  obtain ⟨⟨⟨_, leads⟩, _⟩, _⟩ := shown
  obtain ⟨_, current⟩ := ready.foremost stands seen
  exact leads.unique current same

/-- Skipping the current key takes away the version shown of it, if there is one. -/
theorem Ready.shown_skipAllOnKey :
    ShownAhead snapshot (iterator.skipAllOnKey entry.key) other ↔
      ShownAhead snapshot iterator other ∧ other.key ≠ entry.key := by
  by_cases same : other.key = entry.key
  · refine iff_of_false ?_ fun both => both.2 same
    intro shown
    obtain ⟨_, in_sources, inside⟩ := shown.ahead
    exact absurd same.symm (ne_of_lt (ready.key_lt_of_skipped stands in_sources inside))
  · rw [and_iff_left same]
    exact and_congr_left' (shown_congr (seenAt_skipAllOnKey same))

end

/-- An iterator that stands on a version that is shown, or has nothing ahead. -/
structure Stopped (snapshot : Nat) (iterator : MergingIterator) : Prop extends Ready iterator where
  shown : ∀ entry, iterator.currentEntry = some entry → ShownAhead snapshot iterator entry

/-- The position is that of a version that is shown, with the same versions shown ahead. -/
structure Skips (snapshot : Nat) (iterator later : MergingIterator) : Prop where
  stopped : Stopped snapshot later
  fewer : later.remaining ≤ iterator.remaining
  shown : ∀ other, ShownAhead snapshot later other ↔ ShownAhead snapshot iterator other

theorem Stopped.skips (stopped : Stopped snapshot iterator) : Skips snapshot iterator iterator :=
  ⟨stopped, le_refl _, fun _ => Iff.rfl⟩

theorem Ready.stopped (ready : Ready iterator) (finished : iterator.currentEntry = none) :
    Stopped snapshot iterator := ⟨ready, by simp [finished]⟩

theorem Ready.finished (ready : Ready iterator) (nothing : iterator.remaining ≤ 0) :
    iterator.currentEntry = none := by
  cases stands : iterator.currentEntry with
  | none => rfl
  | some _ =>
    have fewer := ready.remaining_skipAllOnKey stands
    omega

/-- `SkipUnreadable` stops at a version that is shown, and changes nothing that is shown. -/
theorem Ready.skips (snapshot : Nat) (ready : Ready iterator) (enough : iterator.remaining ≤ fuel) :
    Skips snapshot iterator (skipLoop snapshot fuel iterator) := by
  induction fuel generalizing iterator with
  | zero => exact (ready.stopped (ready.finished enough)).skips
  | succ fuel ih =>
    unfold skipLoop
    cases stands : iterator.currentEntry with
    | none => exact (ready.stopped stands).skips
    | some entry =>
      dsimp only
      -- A key that is not shown can be skipped as a whole.
      have skipped : (∀ other, ShownAhead snapshot iterator other → other.key ≠ entry.key) →
          Skips snapshot iterator (skipLoop snapshot fuel (iterator.skipAllOnKey entry.key)) := by
        intro hidden
        have fewer := ready.remaining_skipAllOnKey stands
        obtain ⟨stopped, _, same⟩ := ih (ready.skipAllOnKey entry.key) (by omega)
        refine ⟨stopped, by omega, fun other => ?_⟩
        rw [same, ready.shown_skipAllOnKey stands]
        exact and_iff_left_of_imp (hidden other)
      split_ifs with above marked deletion hidden
      · have fewer := ready.remaining_dropCurrent stands
        obtain ⟨stopped, _, same⟩ := ih ready.dropCurrent (by omega)
        refine ⟨stopped, by omega, fun other => ?_⟩
        rw [same]
        exact and_congr_left' (shown_congr (ready.seenAt_dropCurrent stands above))
      · -- The tombstone is registered, but there is nothing left for it to hide.
        let registered : MergingIterator := { iterator with
          rangeTombstones := iterator.rangeTombstones ++ [SSTable.tombstoneOf entry] }
        have still : Ready registered := ⟨ready.sorted, ready.current⟩
        have fewer : (registered.skipAllOnKey entry.key).remaining < iterator.remaining :=
          ready.remaining_skipAllOnKey stands
        obtain ⟨stopped, bound, same⟩ := ih (still.skipAllOnKey entry.key) (by omega)
        refine ⟨stopped, le_trans bound (le_of_lt fewer), fun _ => ?_⟩
        rw [same, still.shown_skipAllOnKey stands]
        exact iff_of_false (fun both => still.not_shown_of_reserved stands marked both.1)
          (ready.not_shown_of_reserved stands marked)
      · apply skipped
        intro _ shown same
        have equal := ready.eq_of_shown stands (Nat.le_of_not_lt above) shown same
        have value := shown.1.2.1
        rw [equal, deletion] at value
        cases value
      · apply skipped
        intro _ shown same
        have equal := ready.eq_of_shown stands (Nat.le_of_not_lt above) shown same
        have open_key := shown.1.2.2
        rw [equal, hidden] at open_key
        cases open_key
      · refine Stopped.skips ⟨ready, ?_⟩
        intro _ present
        rw [stands] at present
        cases present
        refine ⟨⟨ready.foremost stands (Nat.le_of_not_lt above), ?_, by simpa using hidden⟩,
          by simpa using marked⟩
        cases type_eq : entry.type with
        | deletion => exact absurd type_eq deletion
        | value => rfl

/-! ## The walk -/

/-- Without a current version nothing is shown ahead. -/
theorem Ready.not_shown (ready : Ready iterator) (finished : iterator.currentEntry = none) :
    ¬ ShownAhead snapshot iterator entry := by
  intro shown
  obtain ⟨source, in_sources, inside⟩ := shown.ahead
  rw [ready.exhausted finished source in_sources] at inside
  cases inside

theorem Ready.valid_eq (ready : Ready iterator) :
    iterator.valid = iterator.currentEntry.isSome := by
  rw [valid, currentEntry, ready.current]
  rcases findMinimum_spec iterator.sources with ⟨missing, _⟩ | ⟨_, _, found, least⟩
  · rw [missing]
    rfl
  · rw [found, Option.bind_some, least.present]
    rfl

/-- From its position the iterator yields the wanted versions in the order of their keys, and
then becomes invalid. -/
structure Yields (snapshot steps : Nat) (iterator : MergingIterator) (wanted : Entry → Prop) :
    Prop where
  ascending : (walk snapshot steps iterator).1.Pairwise fun first second => first.key < second.key
  members : ∀ entry, entry ∈ (walk snapshot steps iterator).1 ↔ wanted entry
  ends : (walk snapshot steps iterator).2.valid = false

/-- From where it has stopped, the iterator yields exactly what is shown ahead. -/
theorem Stopped.yields (steps : Nat) (stopped : Stopped snapshot iterator)
    (enough : iterator.remaining ≤ steps) :
    Yields snapshot steps iterator (ShownAhead snapshot iterator) := by
  have exhausted : ∀ {iterator : MergingIterator} {steps : Nat}, Stopped snapshot iterator →
      iterator.currentEntry = none → walk snapshot steps iterator = ([], iterator) →
      Yields snapshot steps iterator (ShownAhead snapshot iterator) := by
    intro _ _ stopped finished walked
    constructor
    · rw [walked]
      exact List.Pairwise.nil
    · intro _
      rw [walked]
      exact iff_of_false not_mem_nil (stopped.not_shown finished)
    · rw [walked, stopped.valid_eq, finished]
      rfl
  induction steps generalizing iterator with
  | zero => exact exhausted stopped (stopped.finished enough) rfl
  | succ steps ih =>
    cases stands : iterator.currentEntry with
    | none => exact exhausted stopped stands (by rw [walk, stands])
    | some entry =>
      have fewer := stopped.remaining_skipAllOnKey stands
      obtain ⟨next_stopped, bound, same⟩ :=
        (stopped.skipAllOnKey entry.key).skips snapshot (le_refl _)
      have next_eq : iterator.next snapshot = skipLoop snapshot
          (iterator.skipAllOnKey entry.key).remaining (iterator.skipAllOnKey entry.key) := by
        simp only [next, stands, skipUnreadable]
      rw [← next_eq] at next_stopped bound same
      have later := ih next_stopped (by omega)
      have walked : walk snapshot (steps + 1) iterator =
          (entry :: (walk snapshot steps (iterator.next snapshot)).1,
            (walk snapshot steps (iterator.next snapshot)).2) := by rw [walk, stands]
      have rest_iff : ∀ other, other ∈ (walk snapshot steps (iterator.next snapshot)).1 ↔
          ShownAhead snapshot iterator other ∧ other.key ≠ entry.key := by
        intro _
        rw [later.members, same, stopped.shown_skipAllOnKey stands]
      have own := stopped.shown entry stands
      constructor
      · rw [walked]
        refine pairwise_cons.mpr ⟨?_, later.ascending⟩
        intro other behind
        obtain ⟨shown, different⟩ := (rest_iff other).mp behind
        obtain ⟨_, in_sources, inside⟩ := shown.ahead
        exact lt_of_le_of_ne (stopped.key_le stands in_sources inside) different.symm
      · intro other
        rw [walked, mem_cons, rest_iff]
        constructor
        · rintro (rfl | ⟨shown, _⟩)
          · exact own
          · exact shown
        intro shown
        by_cases same_key : other.key = entry.key
        · obtain ⟨⟨⟨_, leads⟩, _⟩, _⟩ := own
          obtain ⟨⟨⟨_, others⟩, _⟩, _⟩ := shown
          exact .inl (others.unique leads same_key)
        · exact .inr ⟨shown, same_key⟩
      · rw [walked]
        exact later.ends

/-- Sources in order that hold no stored tombstones. -/
structure SortedSources (iterator : MergingIterator) : Prop where
  sorted : ∀ source ∈ iterator.sources, Sorted Entry.key Entry.seq source.entries
  unreserved : ∀ source ∈ iterator.sources, ∀ entry ∈ source.entries, reserved entry.key = false

/-- The number of versions of the sources. -/
def size (iterator : MergingIterator) : Nat :=
  (iterator.sources.map fun source => source.entries.length).sum

/-- What the snapshot sees of a key from a target on. -/
theorem seenAt_seek (iterator : MergingIterator) (reached : target ≤ key) (index : Nat) :
    seenAt snapshot key
        (iterator.reposition (iterator.sources.map (MergeSource.seek target))).pending index =
      seenAt snapshot key iterator.runs index := by
  rw [seenAt_pending]
  simp only [seenAt, runs, reposition, getElem?_map]
  cases iterator.sources[index]? with
  | none => rfl
  | some source =>
    simp only [Option.map_some, MergeSource.seek, Option.some.injEq]
    -- The versions in front of the target are not versions of the key.
    have none_below : (below Entry.key target source.entries).filter (fun entry =>
        decide (entry.key = key) && decide (entry.seq ≤ snapshot)) = [] := by
      apply filter_eq_nil_iff.mpr
      intro _ member
      have front := key_lt_of_mem_below member
      simp [ne_of_lt (lt_of_lt_of_le front reached)]
    conv_rhs => rw [← below_append_fromKey Entry.key target source.entries, filter_append,
      none_below, nil_append]

section

variable (target : Bytes)
  (sorted : ∀ source ∈ iterator.sources, Sorted Entry.key Entry.seq source.entries)
include target sorted

/-- What is shown behind a seek is what is shown of the keys from the target on. -/
theorem shown_seek :
    ShownAhead snapshot (iterator.reposition (iterator.sources.map (MergeSource.seek target)))
        entry ↔
      target ≤ entry.key ∧ Shown snapshot iterator.rangeTombstones iterator.runs entry ∧
        reserved entry.key = false := by
  by_cases reached : target ≤ entry.key
  · rw [and_iff_right reached]
    exact and_congr_left' (shown_congr (iterator.seenAt_seek reached))
  refine iff_of_false ?_ fun both => reached both.1
  intro shown
  obtain ⟨_, in_moved, inside⟩ := shown.ahead
  obtain ⟨source, in_sources, rfl⟩ := mem_map.mp in_moved
  exact reached ((sorted source in_sources).keySorted.le_key_of_mem_fromKey inside)

/-- A seek leaves the iterator ready. -/
theorem ready_seek :
    Ready (iterator.reposition (iterator.sources.map (MergeSource.seek target))) := by
  refine ⟨?_, rfl⟩
  intro _ member
  obtain ⟨source, in_sources, rfl⟩ := mem_map.mp member
  exact (sorted source in_sources).sublist fromKey_sublist

end

theorem remaining_seek_le (iterator : MergingIterator) (target : Bytes) :
    (iterator.reposition (iterator.sources.map (MergeSource.seek target))).remaining ≤
      iterator.size := by
  simp only [remaining, reposition, map_map]
  apply sum_le_sum
  intro source _
  exact fromKey_sublist.length_le

theorem seekToFirst_eq_seek : iterator.seekToFirst snapshot = iterator.seek [] snapshot := by
  have moved : MergeSource.seekToFirst = MergeSource.seek [] := by
    funext source
    have all : fromKey Entry.key [] source.entries = source.entries := by
      cases shape : source.entries with
      | nil => rfl
      | cons _ _ => exact dropWhile_cons_of_neg (by simp)
    rw [MergeSource.seekToFirst, MergeSource.seek, all]
  rw [seekToFirst, seek, moved]

/-- From a target on, the iterator yields what the snapshot is shown of the keys that are not
those of stored tombstones. -/
theorem yields_seek (snapshot : Nat) (target : Bytes)
    (sorted : ∀ source ∈ iterator.sources, Sorted Entry.key Entry.seq source.entries)
    (enough : iterator.size ≤ steps) :
    Yields snapshot steps (iterator.seek target snapshot) fun entry =>
      target ≤ entry.key ∧ Shown snapshot iterator.rangeTombstones iterator.runs entry ∧
        reserved entry.key = false := by
  have small := iterator.remaining_seek_le target
  obtain ⟨stopped, _, same⟩ := (ready_seek target sorted).skips snapshot (le_refl _)
  have yields := stopped.yields steps (by omega)
  refine ⟨yields.ascending, ?_, yields.ends⟩
  intro entry
  exact (yields.members entry).trans ((same entry).trans (shown_seek target sorted))

/-- Iteration from the first key, and from a target on, yields what the snapshot is shown, in
the order of the keys, and then becomes invalid. -/
theorem yields_shown (iterator : MergingIterator) (sources : SortedSources iterator)
    (snapshot steps : Nat) (enough : iterator.size ≤ steps) :
    Yields snapshot steps (iterator.seekToFirst snapshot)
        (Shown snapshot iterator.rangeTombstones iterator.runs) ∧
      ∀ target, Yields snapshot steps (iterator.seek target snapshot) fun entry =>
        target ≤ entry.key ∧ Shown snapshot iterator.rangeTombstones iterator.runs entry := by
  have unmarked : ∀ entry, Shown snapshot iterator.rangeTombstones iterator.runs entry →
      reserved entry.key = false := by
    rintro entry ⟨⟨index, leads⟩, _⟩
    obtain ⟨run, member, inside⟩ := leads.mem
    obtain ⟨source, in_sources, rfl⟩ := mem_map.mp member
    exact sources.unreserved source in_sources entry inside
  have from_target : ∀ target, Yields snapshot steps (iterator.seek target snapshot) fun entry =>
      target ≤ entry.key ∧ Shown snapshot iterator.rangeTombstones iterator.runs entry := by
    intro target
    have yields := yields_seek snapshot target sources.sorted enough
    refine ⟨yields.ascending, ?_, yields.ends⟩
    intro entry
    rw [yields.members entry, and_iff_left_of_imp (unmarked entry)]
  refine ⟨?_, from_target⟩
  have all := from_target []
  rw [← seekToFirst_eq_seek] at all
  refine ⟨all.ascending, ?_, all.ends⟩
  intro entry
  exact (all.members entry).trans (and_iff_right (le_of_not_gt (by simp)))

/-- A memtable and a table with a common key. -/
def twoSources : MergingIterator where
  sources := [⟨2 ^ 63 - 1, [⟨[107], 7, .value, [2]⟩, ⟨[109], 5, .deletion, []⟩], []⟩,
    ⟨1, [⟨[107], 3, .value, [1]⟩, ⟨[109], 2, .value, [1]⟩, ⟨[110], 4, .value, [9]⟩], []⟩]
  rangeTombstones := [⟨[110], [111], 6⟩]
  current := none

theorem yields_twoSources :
    Yields 5 5 (twoSources.seekToFirst 5) (Shown 5 twoSources.rangeTombstones twoSources.runs) := by
  refine (yields_shown twoSources ⟨?_, ?_⟩ 5 5 (by decide)).1
  · decide
  · decide

end MergingIterator

end LightKV
