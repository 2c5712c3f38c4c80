import Mathlib.Data.Finset.Max
import Mathlib.Data.Prod.Lex
import LightKV.MergingIterator
import LightKV.Restart

/-!
# Scans

`DBImpl::Scan` walks an iterator over both memtables and all tables from a prefix on and
collects the pairs whose key has the prefix, up to a limit. The iterator takes the tag off
a value that is stored inline, and `Scan` unwraps the result once more: a value that begins
with a zero byte loses it, and one that has the shape of a pointer is looked up in the
value log. A value that does neither is `Unambiguous`.

Where the memtables keep the versions of a key in the order of their sequence numbers, a
scan and `Get` agree: the scan lists, in key order, the keys with the prefix that have an
answer, each with that answer (`Listing`).
-/

namespace LightKV

open List hiding head
open Option hiding some
open Versions

/-! ## The iterator of a database -/

/-- `SkipListSourceIterator`. -/
def MemTable.source (mem : MemTable) : MergeSource :=
  ⟨2 ^ 63 - 1, mem.nodes, mem.nodes⟩

/-- `SSTableSourceIterator`. -/
def SSTable.source (table : SSTable) : MergeSource :=
  ⟨table.fileId, table.entries, []⟩

/-- The part of `Iterator::UpdateCurrent` about the value: the tag of an inline value is taken
off, a pointer is left as it is. -/
def stripTag : Bytes → Bytes
  | [] => []
  | tag :: payload => if tag = 0 then payload else tag :: payload

namespace Database

variable (db : Database)

/-- The memtables a reader finds. -/
def memTables : List MemTable :=
  db.mem :: db.imm.toList

/-- The `MergingIterator` that `Iterator::SeekToFirst` and `Iterator::Seek` fill. -/
def merger : MergingIterator where
  sources := db.memTables.map MemTable.source ++ db.tables.map SSTable.source
  rangeTombstones := db.memTables.flatMap MemTable.rangeTombstones ++ db.rangeTombstones
  current := none

/-- What `Scan` makes of a value of the iterator; a pointer that cannot be followed stays. -/
def scanValue (value : Bytes) : Bytes :=
  match db.vlog.unwrap db.disk.vlogs value with
  | .ok raw => raw
  | .error _ => value

/-- The pair for the version the iterator stands on. -/
def scanPair (entry : Entry) : Bytes × Bytes :=
  (entry.key, db.scanValue (stripTag entry.value))

/-- The loop of `Scan`. -/
def scanLoop (snapshot : Nat) (keyPrefix : Bytes) (limit : Int) :
    Nat → MergingIterator → List (Bytes × Bytes) → List (Bytes × Bytes)
  | 0, _, results => results
  | fuel + 1, iterator, results =>
      match iterator.currentEntry with
      | none => results
      | some entry =>
          if limit ≤ results.length then results
          else if keyPrefix.isPrefixOf entry.key then
            scanLoop snapshot keyPrefix limit fuel (iterator.next snapshot)
              (results ++ [db.scanPair entry])
          else results

/-- `DBImpl::Scan`; the snapshot `0` stands for the latest one. Every round moves past a
version, so their number is enough fuel. -/
def scan (snapshotSeq : Nat) (keyPrefix : Bytes) (limit : Int) :
    List (Bytes × Bytes) :=
  let snapshot := if 0 < snapshotSeq then snapshotSeq else db.lastSeq
  let iterator := if keyPrefix = [] then db.merger.seekToFirst snapshot
    else db.merger.seek keyPrefix snapshot
  db.scanLoop snapshot keyPrefix limit db.merger.size iterator []

/-- The loop collects what the walk yields as long as the prefix and the limit allow. -/
theorem scanLoop_eq :
    db.scanLoop snapshot keyPrefix limit fuel iterator results =
      results ++ (((iterator.walk snapshot fuel).1.takeWhile fun entry =>
        keyPrefix.isPrefixOf entry.key).take (limit - results.length).toNat).map db.scanPair := by
  induction fuel generalizing iterator results with
  | zero => simp [scanLoop, MergingIterator.walk]
  | succ _ ih =>
    unfold scanLoop MergingIterator.walk
    cases stands : iterator.currentEntry with
    | none => simp
    | some entry =>
      dsimp only
      split
      · have nothing : (limit - results.length).toNat = 0 := by omega
        rw [nothing, take_zero, map_nil, append_nil]
      split
      · rename_i matched
        obtain ⟨count, more⟩ : ∃ count, (limit - results.length).toNat = count + 1 :=
          ⟨(limit - results.length).toNat - 1, by omega⟩
        have less : (limit - (results ++ [db.scanPair entry]).length).toNat = count := by
          rw [length_append, length_singleton]
          omega
        rw [ih, less, takeWhile_cons, if_pos matched, more, take_succ_cons,
          map_cons, append_assoc, singleton_append]
      · rename_i different
        rw [takeWhile_cons, if_neg different]
        simp

theorem scan_eq :
    db.scan 0 keyPrefix limit =
      ((((db.merger.seek keyPrefix db.lastSeq).walk db.lastSeq db.merger.size).1.takeWhile
        fun entry => keyPrefix.isPrefixOf entry.key).take limit.toNat).map db.scanPair := by
  have start : (if keyPrefix = [] then db.merger.seekToFirst db.lastSeq
      else db.merger.seek keyPrefix db.lastSeq) = db.merger.seek keyPrefix db.lastSeq := by
    split
    · rename_i empty
      rw [empty, MergingIterator.seekToFirst_eq_seek]
    · rfl
  have room : (limit - (([] : List (Bytes × Bytes)).length : Int)).toNat = limit.toNat := by simp
  simp only [scan, lt_irrefl, if_false, start, scanLoop_eq, nil_append, room]

end Database

/-! ## Values -/

/-- A value that `Scan` returns as it was put: it has no tag of its own. -/
def Unambiguous (value : Bytes) : Prop :=
  value.head? ≠ some 0 ∧ pointer? value = none
  deriving Decidable

/-- A stored value whose inline part is unambiguous. -/
def PlainStored (stored : Bytes) : Prop :=
  ∀ payload, stored = 0 :: payload → Unambiguous payload

theorem Unambiguous.unwrap_eq (plain : Unambiguous value) (manager : VLogManager)
    (files : List VLogFile) : manager.unwrap files value = .ok value := by
  cases value with
  | nil => rfl
  | cons tag payload =>
    have untagged : ¬ tag = 0 := by simpa using plain.1
    have unshaped : ¬ (tag = 1 ∧ payload.length = 24) := by
      intro shape
      exact absurd plain.2 (by simp [pointer?, shape])
    simp [VLogManager.unwrap, untagged, unshaped]

/-- What `Scan` returns for a plain stored value is what `Get` returns for it. -/
theorem Database.scanValue_stripTag (db : Database) (plain : PlainStored stored)
    (read : db.vlog.unwrap db.disk.vlogs stored = .ok value) :
    db.scanValue (stripTag stored) = value := by
  unfold scanValue
  cases stored with
  | nil =>
    have empty : value = [] := (Except.ok.inj read).symm
    rw [empty]
    rfl
  | cons tag payload =>
    by_cases inline : tag = 0
    · subst inline
      have same : payload = value := Except.ok.inj read
      have again := (plain payload rfl).unwrap_eq db.vlog db.disk.vlogs
      rw [show stripTag (0 :: payload) = payload from rfl, again, ← same]
    · rw [show stripTag (tag :: payload) = tag :: payload from if_neg inline, read]

/-! ## Prefixes -/

theorem prefix_of_between {front middle last : Bytes} (above : front ≤ middle)
    (below : middle ≤ last) (begins : front <+: last) : front <+: middle := by
  induction front generalizing middle last with
  | nil => exact nil_prefix
  | cons byte front ih =>
    obtain ⟨rest, rfl⟩ := begins
    cases middle with
    | nil => exact absurd above (by simp)
    | cons head middle =>
      rw [← not_lt, cons_lt_cons_iff, not_or] at above
      rw [cons_append, ← not_lt, cons_lt_cons_iff, not_or] at below
      have same : byte = head := le_antisymm (le_of_not_gt above.1) (le_of_not_gt below.1)
      subst same
      have inner : front <+: middle := by
        refine ih ?_ ?_ (prefix_append front rest)
        · exact le_of_not_gt fun less => above.2 ⟨rfl, less⟩
        · exact le_of_not_gt fun less => below.2 ⟨rfl, less⟩
      exact cons_prefix_cons.mpr ⟨rfl, inner⟩

theorem le_of_prefix {front whole : Bytes} (begins : front <+: whole) : front ≤ whole := by
  induction front generalizing whole with
  | nil => exact le_of_not_gt (not_lt_nil whole)
  | cons _ _ ih =>
    obtain ⟨_, rfl⟩ := begins
    rw [cons_append, ← not_lt, cons_lt_cons_iff, not_or]
    exact ⟨lt_irrefl _, fun less => absurd less.2 (not_lt_of_ge (ih (prefix_append _ _)))⟩

/-! ## The foremost version -/

section Foremost

variable {snapshot : Nat} {runs : List Run} {key : Bytes} {index : Nat} {recency : Int}
  {versions : List Entry}

section

variable (found : seenAt snapshot key runs index = some (recency, versions))
include found

theorem seenAt_some :
    ∃ run ∈ runs, index < runs.length ∧ versions = run.versions.filter fun entry =>
      decide (entry.key = key) && decide (entry.seq ≤ snapshot) := by
  obtain ⟨run, present, pair⟩ := map_eq_some_iff.mp found
  exact ⟨run, mem_of_getElem? present, (List.getElem?_eq_some_iff.mp present).1,
    (Prod.mk.inj pair).2.symm⟩

theorem key_of_seenAt (member : entry ∈ versions) : entry.key = key := by
  obtain ⟨_, _, _, rfl⟩ := seenAt_some found
  have selected := (mem_filter.mp member).2
  simp only [Bool.and_eq_true, decide_eq_true_eq] at selected
  exact selected.1

end

/-- In a run in order, the version of a key that comes first is the newest one there. -/
theorem seq_le_head_of_seenAt (sorted : ∀ run ∈ runs, Sorted Entry.key Entry.seq run.versions)
    (found : seenAt snapshot key runs index = some (recency, head :: rest))
    (member : entry ∈ head :: rest) : entry.seq ≤ head.seq := by
  have same : head.key = entry.key := (key_of_seenAt found mem_cons_self).trans
    (key_of_seenAt found member).symm
  obtain ⟨run, inside, _, shape⟩ := seenAt_some found
  have order := (sorted run inside).sublist (filter_sublist (p := fun entry : Entry =>
    decide (entry.key = key) && decide (entry.seq ≤ snapshot)))
  rw [← shape] at order
  rcases mem_cons.mp member with rfl | behind
  · exact le_refl _
  · exact ((pairwise_cons.mp order).1 entry behind).rank_le same

/-- How the foremost version is chosen: by sequence number, by the recency of its run, and then
by the position of the run. -/
def rating (found : Option (Int × List Entry)) (index : Nat) : Nat ×ₗ Int ×ₗ Natᵒᵈ :=
  match found with
  | some (recency, head :: _) => toLex (head.seq, toLex (recency, OrderDual.toDual index))
  | _ => toLex (0, toLex (0, OrderDual.toDual index))

/-- A key that the snapshot sees in some run has a foremost version, as long as the runs are
in order. -/
theorem exists_foremost (sorted : ∀ run ∈ runs, Sorted Entry.key Entry.seq run.versions)
    (member : run ∈ runs) (inside : version ∈ run.versions) (own : version.key = key)
    (seen : version.seq ≤ snapshot) :
    ∃ index entry, entry.key = key ∧ Foremost snapshot runs index entry := by
  let filled : Finset Nat := (Finset.range runs.length).filter fun index =>
    (seenAt snapshot key runs index).any fun found => !found.2.isEmpty
  have candidates : filled.Nonempty := by
    obtain ⟨index, bound, rfl⟩ := getElem_of_mem member
    have listed : version ∈ runs[index].versions.filter fun entry =>
        decide (entry.key = key) && decide (entry.seq ≤ snapshot) :=
      mem_filter.mpr ⟨inside, by simp [own, seen]⟩
    refine ⟨index, Finset.mem_filter.mpr ⟨mem_range.mpr bound, ?_⟩⟩
    rw [seenAt, getElem?_eq_getElem bound, map_some, any_some,
      isEmpty_eq_false_iff.mpr (ne_nil_of_mem listed)]
    rfl
  obtain ⟨index, chosen, best⟩ := Finset.exists_max_image filled
    (fun index => rating (seenAt snapshot key runs index) index) candidates
  obtain ⟨⟨recency, versions⟩, found, nonempty⟩ :=
    (any_eq_true _ _).mp (Finset.mem_filter.mp chosen).2
  cases versions with
  | nil => cases nonempty
  | cons entry older =>
    have entry_key := key_of_seenAt found mem_cons_self
    refine ⟨index, entry, entry_key, recency, older, entry_key ▸ found, ?_⟩
    intro other _ versions other_found _ listed
    rw [entry_key] at other_found
    cases versions with
    | nil => cases listed
    | cons _ _ =>
      have newest := seq_le_head_of_seenAt sorted other_found listed
      obtain ⟨_, _, bound, _⟩ := seenAt_some other_found
      have rated := best other (Finset.mem_filter.mpr ⟨mem_range.mpr bound, by
        rw [other_found]
        rfl⟩)
      simp only [rating, found, other_found, Prod.Lex.toLex_le_toLex,
        OrderDual.toDual_le_toDual] at rated
      omega

end Foremost

/-! ## Scans and point reads -/

/-- The results of a scan over what a reader answers: the first keys with the prefix that have
an answer, up to the limit, in order and each with its answer. A key with the prefix that
has an answer is listed, or the limit is reached and the key comes behind all that are
listed. -/
structure Listing (answer : Bytes → Except Status Bytes) (keyPrefix : Bytes) (limit : Int)
    (results : List (Bytes × Bytes)) : Prop where
  ascending : results.Pairwise fun first second => first.1 < second.1
  bounded : results.length ≤ limit.toNat
  sound : ∀ pair ∈ results,
    reserved pair.1 = false ∧ keyPrefix <+: pair.1 ∧ answer pair.1 = .ok pair.2
  complete : ∀ key value, reserved key = false → keyPrefix <+: key → answer key = .ok value →
    (key, value) ∈ results ∨ results.length = limit.toNat ∧ ∀ pair ∈ results, pair.1 < key

/-- Only the answers for keys without the marker count. -/
theorem Listing.congr (listing : Listing answer keyPrefix limit results)
    (same : ∀ key, reserved key = false → other key = answer key) :
    Listing other keyPrefix limit results where
  ascending := listing.ascending
  bounded := listing.bounded
  sound pair member := by
    obtain ⟨unmarked, matched, answered⟩ := listing.sound pair member
    exact ⟨unmarked, matched, (same pair.1 unmarked).trans answered⟩
  complete key value unmarked matched answered :=
    listing.complete key value unmarked matched ((same key unmarked).symm.trans answered)

/-- The answers determine the results. -/
theorem Listing.unique (listing : Listing answer keyPrefix limit results)
    (other : Listing answer keyPrefix limit others) : results = others := by
  have inside : ∀ {first second : List (Bytes × Bytes)}, Listing answer keyPrefix limit first →
      Listing answer keyPrefix limit second → first ⊆ second := by
    intro first second one two pair member
    obtain ⟨unmarked, matched, answered⟩ := one.sound pair member
    rcases two.complete pair.1 pair.2 unmarked matched answered with here | ⟨_, behind⟩
    · exact here
    -- The second list is full in front of the pair, and the first one has all of it.
    have all : second ⊆ first := by
      intro pair' in_second
      obtain ⟨unmarked', matched', answered'⟩ := two.sound pair' in_second
      rcases one.complete pair'.1 pair'.2 unmarked' matched' answered' with here | ⟨_, ahead⟩
      · exact here
      · exact absurd (lt_trans (behind pair' in_second) (ahead pair member)) (lt_irrefl _)
    have absent : pair ∉ second := fun here => lt_irrefl _ (behind pair here)
    have longer : (pair :: second).length ≤ first.length :=
      (subperm_of_subset
        (nodup_cons.mpr ⟨absent, nodup_of_increasing two.ascending⟩)
        (cons_subset.mpr ⟨member, all⟩)).length_le
    have bounded := one.bounded
    rw [length_cons] at longer
    omega
  exact eq_of_increasing listing.ascending other.ascending fun _ =>
    ⟨fun here => inside listing other here, fun here => inside other listing here⟩

namespace Database

variable {db : Database}

/-- The memtables keep the versions of a key from the highest sequence number down, those of
the active one in front. -/
def Stacked (db : Database) : Prop :=
  ∀ key, (db.mem.versions key ++ db.immVersions key).Pairwise fun newer older =>
    older.seq ≤ newer.seq

/-- Every value of a user key is one that `Scan` returns as it was put. -/
def PlainValues (db : Database) : Prop :=
  ∀ entry ∈ db.points, entry.type = .value → PlainStored entry.value

theorem mem_runs_iff : versions ∈ db.runs ↔ ∃ run ∈ db.merger.runs, run.versions = versions := by
  simp only [MergingIterator.runs, merger, memTables,
    map_append, List.map_map, mem_append, List.mem_map, mem_cons,
    mem_toList]
  constructor
  · rintro (rfl | ⟨imm, rotated, rfl⟩ | ⟨table, present, rfl⟩)
    · exact ⟨_, .inl ⟨db.mem, .inl rfl, rfl⟩, rfl⟩
    · exact ⟨_, .inl ⟨imm, .inr rotated, rfl⟩, rfl⟩
    · exact ⟨_, .inr ⟨table, present, rfl⟩, rfl⟩
  · rintro ⟨_, ⟨mem, rfl | rotated, rfl⟩ | ⟨table, present, rfl⟩, rfl⟩
    · exact .inl rfl
    · exact .inr (.inl ⟨mem, rotated, rfl⟩)
    · exact .inr (.inr ⟨table, present, rfl⟩)

theorem Stacked.sorted (stacked : Stacked db) :
    ∀ mem ∈ db.memTables, Sorted Entry.key Entry.seq mem.nodes := by
  intro mem member
  refine mem.ordered.sorted fun key => ?_
  have both := pairwise_append.mp (stacked key)
  rcases mem_cons.mp member with rfl | rotated
  · exact both.1
  · have waiting := both.2.1
    rwa [immVersions, mem_toList.mp rotated] at waiting

theorem Stacked.sorted_sources (stacked : Stacked db) (consistent : Consistent db) :
    ∀ source ∈ db.merger.sources, Sorted Entry.key Entry.seq source.entries := by
  intro _ member
  rcases mem_append.mp member with front | back
  · obtain ⟨mem, inside, rfl⟩ := mem_map.mp front
    exact stacked.sorted mem inside
  · obtain ⟨table, present, rfl⟩ := mem_map.mp back
    exact (consistent.wellFormed table present).sorted.imp fun before => seqBefore_of_before before

section

variable (consistent : Consistent db)
include consistent

/-- The iterator knows the registered tombstones and no others. -/
theorem covered_merger :
    covered db.merger.rangeTombstones key seq snapshot =
      covered db.rangeTombstones key seq snapshot := by
  apply Bool.eq_iff_iff.mpr
  constructor
  · refine covered_mono ?_
    intro _ member
    rcases mem_append.mp member with front | registered
    · obtain ⟨mem, inside, held⟩ := mem_flatMap.mp front
      rcases mem_cons.mp inside with rfl | rotated
      · exact consistent.memTombstones held
      · exact consistent.immTombstones mem (mem_toList.mp rotated) held
    · exact registered
  · exact covered_mono (subset_append_right _ _)

/-- Behind a foremost version stands the newest one; without batches they are of one kind. -/
theorem Consistent.newest_of_foremost (unmixed : Unmixed db) (unmarked : reserved entry.key = false)
    (leads : Foremost db.lastSeq db.merger.runs index entry) :
    Newest Entry.key Entry.rank db.points entry.key entry := by
  obtain ⟨run, member, inside⟩ := leads.mem
  have own_run : run.versions ∈ db.runs := mem_runs_iff.mpr ⟨run, member, rfl⟩
  have user : UserKey entry.key := consistent.toHoused.userKey_of_unreserved own_run inside unmarked
  have own : entry ∈ db.points := ⟨user, run.versions, own_run, inside⟩
  refine ⟨own, rfl, ?_⟩
  rintro other ⟨_, _, other_run, other_in⟩ same
  obtain ⟨holder, holder_in, rfl⟩ := mem_runs_iff.mp other_run
  have older : other.seq ≤ entry.seq := by
    obtain ⟨_, _, _, ahead⟩ := leads
    obtain ⟨position, bound, at_position⟩ := getElem_of_mem holder_in
    have seen : seenAt db.lastSeq entry.key db.merger.runs position = some (holder.recency,
        holder.versions.filter fun entry' =>
          decide (entry'.key = entry.key) && decide (entry'.seq ≤ db.lastSeq)) := by
      rw [seenAt, getElem?_eq_getElem bound, at_position, map_some]
    have visible := le_of_lt (consistent.toHoused.older holder.versions other_run other other_in)
    rcases ahead position _ _ seen other (mem_filter.mpr
      ⟨other_in, by simp [same, visible]⟩) with less | ⟨equal, _⟩
    · exact le_of_lt less
    · exact le_of_eq equal
  rcases lt_or_eq_of_le older with less | equal
  · exact le_of_lt (Entry.rank_lt_of_seq_lt less)
  · have type_eq := unmixed other ⟨same ▸ user, _, other_run, other_in⟩ entry own same equal
    exact le_of_eq (Entry.rank_eq_iff.mpr ⟨equal, type_eq⟩)

/-- The versions a scan may return. -/
abbrev Scanned (db : Database) (entry : Entry) : Prop :=
  Shown db.lastSeq db.merger.rangeTombstones db.merger.runs entry ∧ reserved entry.key = false

/-- What a newest version that is shown answers, to `Get` and to `Scan`. -/
theorem Consistent.get_of_newest (plain : PlainValues db)
    (newest : Newest Entry.key Entry.rank db.points entry.key entry) (value : entry.type = .value)
    (uncovered : covered db.rangeTombstones entry.key entry.seq db.lastSeq = false) :
    db.get entry.key = .ok (db.scanPair entry).2 := by
  obtain ⟨_, read⟩ := db.vlog.unwrap_ok (consistent.resident entry newest.1)
  have returned := db.scanValue_stripTag (plain entry newest.1 value) read
  rw [consistent.toReadable.get_eq_resolve newest, resolve, resolveAt, if_neg (by simp [value]),
    answerValue, uncovered, read]
  exact congrArg Except.ok returned.symm

theorem Consistent.get_of_scanned (unmixed : Unmixed db) (plain : PlainValues db)
    (scanned : db.Scanned entry) : db.get entry.key = .ok (db.scanPair entry).2 := by
  obtain ⟨⟨⟨_, leads⟩, value, uncovered⟩, unmarked⟩ := scanned
  have newest := consistent.newest_of_foremost unmixed unmarked leads
  rw [covered_merger consistent] at uncovered
  exact consistent.get_of_newest plain newest value uncovered

theorem Consistent.get_nil : db.get [] = .error (.notFound "") := by
  have housed := consistent.toHoused
  have unseen : ∀ mem : MemTable, (∀ entry ∈ mem.nodes, UserKey entry.key) →
      mem.seen [] db.lastSeq = none := by
    intro _ users
    refine MemTable.unseen_iff.mpr ?_
    intro entry member empty
    exact absurd empty (users entry member).1
  have missing : db.readTables [] db.lastSeq = .error (.notFound "") := by
    unfold readTables
    cases found : searchLevels db.levels db.lastSeq [] db.lastSeq with
    | none => rfl
    | some entry =>
      obtain ⟨⟨_, present, inside⟩, empty⟩ := foundIn_searchLevels db.levels _ _ _ entry found
      exact absurd empty (housed.key_ne_nil present inside)
  rw [consistent.toReadable.get_eq_readAt, readAt, unseen db.mem housed.memKeys]
  cases rotated : db.imm with
  | none => exact missing
  | some imm =>
    rw [bind_some, unseen imm (housed.immKeys imm rotated)]
    exact missing

/-- A value that `Get` returns belongs to a version that a scan returns. -/
theorem Consistent.scanned_of_get (unmixed : Unmixed db) (stacked : Stacked db)
    (plain : PlainValues db) (user : UserKey key) (answered : db.get key = .ok value) :
    ∃ entry, db.Scanned entry ∧ db.scanPair entry = (key, value) := by
  rcases consistent.toReadable.get_newest user with ⟨found, newest, _⟩ | ⟨_, missing⟩
  · obtain ⟨⟨_, _, held, inside⟩, own, _⟩ := newest
    obtain ⟨run, member, rfl⟩ := mem_runs_iff.mp held
    have sorted : ∀ run ∈ db.merger.runs, Sorted Entry.key Entry.seq run.versions := by
      intro _ in_runs
      obtain ⟨source, in_sources, rfl⟩ := mem_map.mp in_runs
      exact stacked.sorted_sources consistent source in_sources
    obtain ⟨index, entry, rfl, leads⟩ := exists_foremost sorted member inside own
      (le_of_lt (consistent.toHoused.older run.versions held found inside))
    have entry_newest := consistent.newest_of_foremost unmixed user.2 leads
    have resolved := consistent.toReadable.get_eq_resolve entry_newest
    rw [answered, resolve, resolveAt, answerValue] at resolved
    have kind : entry.type = .value := by
      cases type_eq : entry.type with
      | value => rfl
      | deletion => simp [type_eq] at resolved
    have uncovered : covered db.rangeTombstones entry.key entry.seq db.lastSeq = false := by
      cases hidden : covered db.rangeTombstones entry.key entry.seq db.lastSeq with
      | false => rfl
      | true => simp [kind, hidden] at resolved
    refine ⟨entry, ⟨⟨⟨index, leads⟩, kind, ?_⟩, user.2⟩, ?_⟩
    · rw [covered_merger consistent, uncovered]
    · have same := answered.symm.trans (consistent.get_of_newest plain entry_newest kind uncovered)
      exact Prod.ext rfl (Except.ok.inj same).symm
  · rw [missing] at answered
    cases answered

/-- A scan lists what `Get` answers. -/
theorem Consistent.listing_scan (unmixed : Unmixed db) (stacked : Stacked db)
    (plain : PlainValues db) {keyPrefix : Bytes} :
    Listing db.get keyPrefix limit (db.scan 0 keyPrefix limit) := by
  have yields := MergingIterator.yields_seek db.lastSeq keyPrefix
    (stacked.sorted_sources consistent) (le_refl _)
  have ascending := yields.ascending
  have members := yields.members
  rw [scan_eq]
  generalize (MergingIterator.walk db.lastSeq db.merger.size
    (db.merger.seek keyPrefix db.lastSeq)).1 = walked at ascending members ⊢
  -- The keys with the prefix come first.
  have cut : walked.takeWhile (fun entry => keyPrefix.isPrefixOf entry.key) =
      walked.filter fun entry => keyPrefix.isPrefixOf entry.key := by
    apply (LowerBound.Partitioned.eq_filter _).1
    refine ascending.imp_of_mem ?_
    intro first _ in_first _ below matched
    exact isPrefixOf_iff_prefix.mpr <| prefix_of_between ((members first).mp in_first).1
      (le_of_lt below) <| isPrefixOf_iff_prefix.mp matched
  rw [cut]
  have listed : ∀ entry ∈ walked.filter fun entry => keyPrefix.isPrefixOf entry.key,
      db.Scanned entry ∧ keyPrefix <+: entry.key := by
    intro entry member
    obtain ⟨inside, matched⟩ := mem_filter.mp member
    exact ⟨((members entry).mp inside).2, isPrefixOf_iff_prefix.mp matched⟩
  have order := ascending.sublist (filter_sublist (p := fun entry : Entry =>
    keyPrefix.isPrefixOf entry.key))
  constructor
  · exact List.Pairwise.map _ (fun _ _ below => below) (order.sublist (take_sublist _ _))
  · rw [length_map, length_take]
    exact min_le_left _ _
  · intro _ member
    obtain ⟨entry, taken, rfl⟩ := mem_map.mp member
    obtain ⟨scanned, matched⟩ := listed entry (mem_of_mem_take taken)
    exact ⟨scanned.2, matched, consistent.get_of_scanned unmixed plain scanned⟩
  · intro key _ unmarked matched answered
    have user : UserKey key := by
      refine ⟨?_, unmarked⟩
      rintro rfl
      rw [consistent.get_nil] at answered
      cases answered
    obtain ⟨entry, scanned, pair_eq⟩ := consistent.scanned_of_get unmixed stacked plain user
      answered
    have key_eq : entry.key = key := congrArg Prod.fst pair_eq
    have walked_in : entry ∈ walked := (members entry).mpr ⟨key_eq ▸ le_of_prefix matched, scanned⟩
    have selected : entry ∈ walked.filter fun entry => keyPrefix.isPrefixOf entry.key :=
      mem_filter.mpr ⟨walked_in, isPrefixOf_iff_prefix.mpr (key_eq ▸ matched)⟩
    rw [← take_append_drop limit.toNat (walked.filter _), mem_append] at selected
    rcases selected with taken | cut
    · rw [← pair_eq]
      exact .inl (mem_map_of_mem taken)
    -- Behind the limit all keys are larger.
    refine .inr ⟨?_, ?_⟩
    · have long := length_pos_of_mem cut
      rw [length_drop] at long
      rw [length_map, length_take]
      omega
    · intro _ member
      obtain ⟨other, taken, rfl⟩ := mem_map.mp member
      rw [← take_append_drop limit.toNat (walked.filter _)] at order
      exact key_eq ▸ (pairwise_append.mp order).2.2 other taken entry cut

end

end Database

end LightKV
