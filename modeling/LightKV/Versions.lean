import Mathlib.Data.List.Pairwise
import Mathlib.Data.List.TakeWhile
import Mathlib.Data.Set.Basic
import Mathlib.Order.Basic
import LightKV.LowerBound

/-!
# Versioned entries

A store that keeps several versions of a key orders its entries by key and, within one
key, from the newest version to the oldest. This module is about that order alone: the
entries have a key and a rank, both from arbitrary linear orders, and a larger rank is a
newer version.

`Newest S k e` says that `e` is the version a reader of the set `S` has to see. A
smaller set *covers* a larger one when it holds, for each entry it leaves out, a version
that is at least as new: what is newest in it is newest in the larger set. A list is
searched by key; when it is also sorted by rank within a key, the search ends at the
newest version.
-/

namespace LightKV.Versions

open List LowerBound

universe u v w

variable {α : Type u} {K : Type v} {R : Type w}

/-- A list whose keys do not decrease. -/
def KeySorted [LinearOrder K] (key : α → K) (entries : List α) : Prop :=
  entries.Pairwise fun first second => key first ≤ key second
  deriving Decidable

section Increasing

variable [LinearOrder K] {key : α → K} {first second : List α}

theorem nodup_of_increasing (increasing : first.Pairwise fun low high => key low < key high) :
    first.Nodup := by
  refine increasing.imp ?_
  rintro _ _ below rfl
  exact lt_irrefl _ below

/-- Lists with increasing keys and the same entries are the same. -/
theorem eq_of_increasing (increasing : first.Pairwise fun low high => key low < key high)
    (also : second.Pairwise fun low high => key low < key high)
    (same : ∀ entry, entry ∈ first ↔ entry ∈ second) : first = second := by
  have rearranged : first.Perm second :=
    (perm_ext_iff_of_nodup (nodup_of_increasing increasing) (nodup_of_increasing also)).mpr same
  apply List.Perm.eq_of_pairwise ?_ increasing also rearranged
  intro _ _ _ _ below above
  exact absurd (lt_trans below above) (lt_irrefl _)

end Increasing

/-- Of two different members of a list in order one comes first. -/
theorem related_or {entries : List α} {related : α → α → Prop} (pairwise : entries.Pairwise related)
    (in_first : first ∈ entries) (in_second : second ∈ entries) (different : first ≠ second) :
    related first second ∨ related second first := by
  have symmetric : Std.Symm fun first second => related first second ∨ related second first :=
    ⟨fun _ _ => .symm⟩
  have either : entries.Pairwise fun first second => related first second ∨ related second first :=
    pairwise.imp .inl
  exact either.forall in_first in_second different

section Order

variable [LinearOrder K] [LinearOrder R] (key : α → K) (rank : α → R)

/-- Smaller keys come first, and newer versions of one key come first. -/
def Before (first second : α) : Prop :=
  key first < key second ∨ key first = key second ∧ rank second ≤ rank first
  deriving Decidable

/-- A list in the order of `Before`. -/
def Sorted (entries : List α) : Prop :=
  entries.Pairwise (Before key rank)
  deriving Decidable

/-- Every entry of the first list stands before every entry of the second. -/
def Precedes (front back : List α) : Prop :=
  ∀ first ∈ front, ∀ second ∈ back, Before key rank first second

end Order

section Sets

variable [LinearOrder R] (key : α → K) (rank : α → R)

/-- `entry` is the newest version of `wanted` in the set. -/
def Newest (entries : Set α) (wanted : K) (entry : α) : Prop :=
  entry ∈ entries ∧ key entry = wanted ∧
    ∀ other ∈ entries, key other = wanted → rank other ≤ rank entry

/-- The smaller set has, for each entry of the larger one, a version at least as new. -/
def Covers (small large : Set α) : Prop :=
  small ⊆ large ∧
    ∀ entry ∈ large, ∃ newer ∈ small, key newer = key entry ∧ rank entry ≤ rank newer

end Sets

section Before

variable [LinearOrder K] [LinearOrder R] {key : α → K} {rank : α → R} {first second third : α}

theorem Before.refl : Before key rank entry entry := .inr ⟨rfl, le_refl _⟩

theorem Before.key_le (before : Before key rank first second) : key first ≤ key second := by
  rcases before with below | ⟨same, _⟩
  · exact le_of_lt below
  · exact le_of_eq same

theorem Before.rank_le (before : Before key rank first second) (same : key first = key second) :
    rank second ≤ rank first := by
  rcases before with below | ⟨_, newer⟩
  · exact absurd same (ne_of_lt below)
  · exact newer

theorem Before.trans (earlier : Before key rank first second)
    (later : Before key rank second third) : Before key rank first third := by
  rcases lt_or_eq_of_le (le_trans earlier.key_le later.key_le) with below | same
  · exact .inl below
  · have middle : key first = key second := le_antisymm earlier.key_le (same ▸ later.key_le)
    exact .inr ⟨same, le_trans (later.rank_le (middle ▸ same)) (earlier.rank_le middle)⟩

end Before

/-! ## Covering -/

section Covering

variable [LinearOrder R] {key : α → K} {rank : α → R}

theorem Covers.refl : Covers key rank entries entries :=
  ⟨subset_rfl, fun entry member => ⟨entry, member, rfl, le_refl _⟩⟩

/-- What is newest in a covering subset is newest in the larger set. -/
theorem Covers.newest (covers : Covers key rank small large)
    (newest : Newest key rank small wanted entry) : Newest key rank large wanted entry := by
  obtain ⟨member, same, highest⟩ := newest
  refine ⟨covers.1 member, same, ?_⟩
  intro other inside other_same
  obtain ⟨newer, held, newer_same, at_least⟩ := covers.2 other inside
  exact le_trans at_least (highest newer held (newer_same.trans other_same))

/-- A covering subset holds a key exactly when the larger set does. -/
theorem Covers.exists_key_iff (covers : Covers key rank small large) :
    (∃ entry ∈ small, key entry = wanted) ↔ ∃ entry ∈ large, key entry = wanted := by
  constructor
  · rintro ⟨entry, member, same⟩
    exact ⟨entry, covers.1 member, same⟩
  · rintro ⟨entry, member, same⟩
    obtain ⟨newer, inside, newer_same, _⟩ := covers.2 entry member
    exact ⟨newer, inside, newer_same.trans same⟩

theorem Newest.rank_eq (newest : Newest key rank entries wanted first)
    (other : Newest key rank entries wanted second) : rank first = rank second :=
  le_antisymm (other.2.2 first newest.1 newest.2.1) (newest.2.2 second other.1 other.2.1)

end Covering

/-! ## Sorted lists -/

section Lists

variable [LinearOrder K] {entries : List α} {wanted : K} {entry : α}

/-- The versions of one key, in their order. -/
def ofKey (key : α → K) (wanted : K) (entries : List α) : List α :=
  entries.filter fun entry => decide (key entry = wanted)

/-- The entries in front of the first one whose key is not smaller. -/
def below (key : α → K) (wanted : K) (entries : List α) : List α :=
  entries.takeWhile fun entry => decide (key entry < wanted)

/-- The entries from the first one on whose key is not smaller. -/
def fromKey (key : α → K) (wanted : K) (entries : List α) : List α :=
  entries.dropWhile fun entry => decide (key entry < wanted)

/-- Skip the smaller keys and take the first visible version of `wanted`. -/
def lookup (key : α → K) (wanted : K) (visible : α → Bool) (entries : List α) : Option α :=
  ((fromKey key wanted entries).takeWhile fun entry => decide (key entry = wanted)).find? visible

/-- Put an entry in front of the versions its key already has. -/
def insertFront (key : α → K) (entry : α) (entries : List α) : List α :=
  below key (key entry) entries ++ entry :: fromKey key (key entry) entries

variable {key : α → K}

@[simp] theorem mem_ofKey :
    entry ∈ ofKey key wanted entries ↔ entry ∈ entries ∧ key entry = wanted := by
  simp [ofKey]

@[simp] theorem ofKey_nil : ofKey key wanted [] = [] := rfl

theorem ofKey_append :
    ofKey key wanted (front ++ back) = ofKey key wanted front ++ ofKey key wanted back :=
  filter_append ..

theorem ofKey_cons :
    ofKey key wanted (entry :: entries) =
      if key entry = wanted then entry :: ofKey key wanted entries
      else ofKey key wanted entries := by by_cases same : key entry = wanted <;> simp [ofKey, same]

variable (key) in
theorem below_append_fromKey (wanted : K) (entries : List α) :
    below key wanted entries ++ fromKey key wanted entries = entries :=
  takeWhile_append_dropWhile ..

theorem fromKey_sublist :
    (fromKey key wanted entries).Sublist entries := dropWhile_sublist _

theorem mem_insertFront :
    other ∈ insertFront key entry entries ↔ other = entry ∨ other ∈ entries := by
  have split := below_append_fromKey key (key entry) entries
  unfold insertFront
  rw [mem_append, mem_cons]
  conv_rhs => rw [← split, mem_append]
  exact or_left_comm

theorem key_lt_of_mem_below (member : entry ∈ below key wanted entries) : key entry < wanted := by
  have chosen := mem_takeWhile_imp member
  simpa using chosen

theorem ofKey_below : ofKey key wanted (below key wanted entries) = [] := by
  apply filter_eq_nil_iff.mpr
  intro _ member
  simpa using ne_of_lt (key_lt_of_mem_below member)

section

variable (sorted : KeySorted key entries)
include sorted

theorem KeySorted.partitioned : Partitioned (fun entry => decide (key entry < wanted)) entries := by
  refine List.Pairwise.imp ?_ sorted
  intro _ _ ordered below
  simp only [decide_eq_true_eq] at below ⊢
  exact lt_of_le_of_lt ordered below

/-- In key order, what remains after the smaller keys has no smaller key. -/
theorem KeySorted.le_key_of_mem_fromKey
    (member : entry ∈ fromKey key wanted entries) : wanted ≤ key entry := by
  simpa using sorted.partitioned.not_below_of_mem_dropWhile member

/-- The versions of `wanted` are the ones between the smaller and the larger keys. -/
theorem KeySorted.takeWhile_fromKey :
    ((fromKey key wanted entries).takeWhile fun entry => decide (key entry = wanted)) =
      ofKey key wanted entries := by
  conv_rhs => rw [← below_append_fromKey key wanted entries, ofKey_append, ofKey_below]
  apply (Partitioned.eq_filter _).1
  refine List.Pairwise.imp_of_mem ?_ (sorted.sublist fromKey_sublist)
  intro _ _ in_front _ ordered same
  simp only [decide_eq_true_eq] at same ⊢
  exact le_antisymm (same ▸ ordered) (sorted.le_key_of_mem_fromKey in_front)

/-- A list in key order is searched as if only the versions of the key were there. -/
theorem KeySorted.lookup_eq_find :
    lookup key wanted visible entries = (ofKey key wanted entries).find? visible := by
  unfold lookup
  rw [sorted.takeWhile_fromKey]

/-- An entry goes between those with smaller keys and the others. -/
theorem KeySorted.pairwise_insertFront {related : α → α → Prop}
    (pairwise : entries.Pairwise related)
    (front : ∀ other ∈ entries, key other < key entry → related other entry)
    (back : ∀ other ∈ entries, key entry ≤ key other → related entry other) :
    (insertFront key entry entries).Pairwise related := by
  rw [← below_append_fromKey key (key entry) entries] at pairwise
  obtain ⟨front_related, back_related, across⟩ := pairwise_append.mp pairwise
  refine pairwise_append.mpr ⟨front_related, pairwise_cons.mpr ⟨?_, back_related⟩, ?_⟩
  · intro other member
    exact back other (fromKey_sublist.mem member) (sorted.le_key_of_mem_fromKey member)
  · intro other member later behind
    rcases mem_cons.mp behind with rfl | behind
    · exact front other ((takeWhile_sublist _).mem member) (key_lt_of_mem_below member)
    · exact across other member later behind

/-- Inserting by key keeps the keys in order. -/
theorem KeySorted.insertFront : KeySorted key (insertFront key entry entries) :=
  sorted.pairwise_insertFront sorted (fun _ _ => le_of_lt) fun _ _ => id

end

/-- The versions of a key after an insertion: a version of that key comes first, and the
versions of other keys stay as they are. -/
theorem ofKey_insertFront :
    ofKey key wanted (insertFront key entry entries) =
      if key entry = wanted then entry :: ofKey key wanted entries
      else ofKey key wanted entries := by
  have split := below_append_fromKey key (key entry) entries
  unfold insertFront
  rw [ofKey_append, ofKey_cons]
  by_cases same : key entry = wanted
  · subst same
    rw [if_pos rfl, if_pos rfl, ofKey_below, nil_append]
    conv_rhs => rw [← split, ofKey_append, ofKey_below, nil_append]
  · rw [if_neg same, if_neg same, ← ofKey_append, split]

/-- Leaving entries out commutes with an insertion. -/
theorem KeySorted.filter_insertFront (sorted : KeySorted key entries) :
    (Versions.insertFront key entry entries).filter keep =
      if keep entry then Versions.insertFront key entry (entries.filter keep)
      else entries.filter keep := by
  have fewer : KeySorted key (entries.filter keep) := sorted.sublist filter_sublist
  have front : below key (key entry) (entries.filter keep) =
      (below key (key entry) entries).filter keep := by
    unfold below
    rw [fewer.partitioned.eq_filter.1, sorted.partitioned.eq_filter.1, filter_filter,
      filter_filter]
    simp only [Bool.and_comm]
  have back : fromKey key (key entry) (entries.filter keep) =
      (fromKey key (key entry) entries).filter keep := by
    unfold fromKey
    rw [fewer.partitioned.eq_filter.2, sorted.partitioned.eq_filter.2, filter_filter,
      filter_filter]
    simp only [Bool.and_comm]
  unfold Versions.insertFront
  rw [filter_append, filter_cons]
  split
  · rw [front, back]
  · rw [← filter_append, below_append_fromKey]

variable [LinearOrder R] {rank : α → R}

theorem Sorted.keySorted (sorted : Sorted key rank entries) : KeySorted key entries :=
  List.Pairwise.imp (fun before => Before.key_le before) sorted

/-- Keys in order, and the versions of each key in order, make a sorted list. -/
theorem KeySorted.sorted (keys : KeySorted key entries) (versions : ∀ wanted,
      (ofKey key wanted entries).Pairwise fun newer older => rank older ≤ rank newer) :
    Sorted key rank entries := by
  induction entries with
  | nil => exact List.Pairwise.nil
  | cons entry _ ih =>
    obtain ⟨front, behind⟩ := pairwise_cons.mp keys
    refine pairwise_cons.mpr ⟨?_, ih behind fun wanted => ?_⟩
    · intro other member
      rcases lt_or_eq_of_le (front other member) with below | same
      · exact .inl below
      · have own := versions (key entry)
        rw [ofKey_cons, if_pos rfl] at own
        exact .inr ⟨same, (pairwise_cons.mp own).1 other (mem_ofKey.mpr ⟨member, same.symm⟩)⟩
    · have all := versions wanted
      rw [ofKey_cons] at all
      split at all
      · exact all.of_cons
      · exact all

theorem Sorted.newest_of_lookup (sorted : Sorted key rank entries)
    (found : lookup key wanted visible entries = some entry) :
    Newest key rank {other | other ∈ entries ∧ visible other = true} wanted entry := by
  rw [sorted.keySorted.lookup_eq_find, ofKey, find?_filter, find?_eq_some_iff_append] at found
  obtain ⟨matched, _, _, rfl, skipped⟩ := found
  simp only [decide_eq_true_eq] at matched
  refine ⟨⟨by simp, matched.2⟩, matched.1, ?_⟩
  rintro other ⟨member, seen⟩ same
  rcases mem_append.mp member with before | inside
  · have passed := skipped other before
    simp [same, seen] at passed
  · rcases mem_cons.mp inside with rfl | behind
    · exact le_refl _
    · have ordered := (pairwise_append.mp sorted).2.1
      exact ((pairwise_cons.mp ordered).1 other behind).rank_le (matched.1.trans same.symm)

/-- What a list in key order does not find has no visible version. -/
theorem KeySorted.absent_of_lookup (sorted : KeySorted key entries)
    (missing : lookup key wanted visible entries = none) :
    ∀ entry ∈ entries, key entry = wanted → visible entry = false := by
  rw [sorted.lookup_eq_find, find?_eq_none] at missing
  intro entry member same
  have unmatched := missing entry (mem_ofKey.mpr ⟨member, same⟩)
  simpa using unmatched

end Lists

end LightKV.Versions
