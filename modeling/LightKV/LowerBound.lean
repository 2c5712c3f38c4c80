import Mathlib.Data.List.TakeWhile

/-!
# `std::lower_bound`

The library's binary search over a range that a predicate cuts in two: all elements that
satisfy it stand in front of all that do not. The loop halves the range it still has to
look at. On such a range the position it returns is the length of the longest front part
that satisfies the predicate, so `take` and `drop` at that position are `takeWhile` and
`dropWhile`.
-/

namespace LightKV.LowerBound

open List

universe u

variable {α : Type u}

/-- The loop: `first` is the start of the remaining range and `len` its length. Each
round shortens the range, so its length is enough fuel. -/
def search (below : α → Bool) (elements : List α) : Nat → Nat → Nat → Nat
  | 0, first, _ => first
  | fuel + 1, first, len =>
      if len = 0 then first
      else if (elements[first + len / 2]?).any below then
        search below elements fuel (first + len / 2 + 1) (len - len / 2 - 1)
      else search below elements fuel first (len / 2)

/-- `std::lower_bound` as an offset from the beginning of the range. -/
def lowerBound (below : α → Bool) (elements : List α) : Nat :=
  search below elements elements.length 0 elements.length

/-- Elements that satisfy the predicate stand in front of those that do not. -/
def Partitioned (below : α → Bool) (elements : List α) : Prop :=
  elements.Pairwise fun first second => below second = true → below first = true

section

variable {below : α → Bool} {elements : List α} (partitioned : Partitioned below elements)
include partitioned

/-- In a partitioned list the predicate holds exactly in the front part. -/
theorem Partitioned.below_iff (present : elements[index]? = some element) :
    below element = true ↔ index < (elements.takeWhile below).length := by
  induction elements generalizing index with
  | nil => simp at present
  | cons head _ ih =>
    obtain ⟨first, rest_partitioned⟩ := pairwise_cons.mp partitioned
    cases chosen : below head with
    | true =>
      rw [takeWhile_cons_of_pos chosen, length_cons]
      cases index with
      | zero =>
        rw [getElem?_cons_zero, Option.some.injEq] at present
        simp [← present, chosen]
      | succ _ =>
        rw [ih rest_partitioned present]
        omega
    | false =>
      rw [takeWhile_cons_of_neg (by simp [chosen])]
      refine ⟨fun holds => ?_, fun impossible => by simp at impossible⟩
      -- An element behind `head` that satisfied the predicate would force it on `head`.
      rcases mem_cons.mp (mem_of_getElem? present) with rfl | behind
      · simp [chosen] at holds
      · simp [first element behind holds] at chosen

/-- The loop ends at the cut as long as the cut lies in the remaining range. -/
theorem search_eq (first len : Nat) (enough : len ≤ fuel)
    (inside : first + len ≤ elements.length) (lower : first ≤ (elements.takeWhile below).length)
    (upper : (elements.takeWhile below).length ≤ first + len) :
    search below elements fuel first len = (elements.takeWhile below).length := by
  induction fuel generalizing first len with
  | zero =>
    unfold search
    omega
  | succ _ ih =>
    unfold search
    by_cases empty : len = 0
    · rw [if_pos empty]
      omega
    rw [if_neg empty]
    have present : elements[first + len / 2]? = some elements[first + len / 2] :=
      getElem?_eq_getElem (by omega)
    have cut := partitioned.below_iff present
    rw [present, Option.any_some]
    cases chosen : below elements[first + len / 2] with
    | true =>
      have passed := cut.mp chosen
      exact ih _ _ (by omega) (by omega) (by omega) (by omega)
    | false =>
      have stopped : ¬ first + len / 2 < (elements.takeWhile below).length := by
        intro passed
        simp [cut.mpr passed] at chosen
      exact ih _ _ (by omega) (by omega) (by omega) (by omega)

theorem Partitioned.lowerBound_eq : lowerBound below elements = (elements.takeWhile below).length :=
  search_eq partitioned _ _ (le_refl _) (by omega) (Nat.zero_le _)
    (by have := (takeWhile_sublist below (l := elements)).length_le; omega)

theorem Partitioned.take_lowerBound :
    elements.take (lowerBound below elements) = elements.takeWhile below := by
  rw [partitioned.lowerBound_eq]
  exact (prefix_iff_eq_take.mp <| takeWhile_prefix below).symm

theorem Partitioned.drop_lowerBound :
    elements.drop (lowerBound below elements) = elements.dropWhile below := by
  have whole := takeWhile_append_dropWhile (p := below) (l := elements)
  have again := take_append_drop (lowerBound below elements) elements
  rw [partitioned.take_lowerBound] at again
  exact append_cancel_left (again.trans whole.symm)

theorem Partitioned.not_below_of_mem_dropWhile (member : element ∈ elements.dropWhile below) :
    below element = false := by
  induction elements with
  | nil => simp at member
  | cons head _ ih =>
    obtain ⟨first, rest_partitioned⟩ := pairwise_cons.mp partitioned
    cases chosen : below head with
    | true =>
      rw [dropWhile_cons_of_pos chosen] at member
      exact ih rest_partitioned member
    | false =>
      rw [dropWhile_cons_of_neg (by simp [chosen])] at member
      rcases mem_cons.mp member with rfl | behind
      · exact chosen
      · by_contra holds
        simp [first element behind (by simpa using holds)] at chosen

/-- The cut divides the elements that satisfy the predicate from the others. -/
theorem Partitioned.eq_filter : elements.takeWhile below = elements.filter below ∧
    elements.dropWhile below = elements.filter (!below ·) := by
  have split (keep : α → Bool) : elements.filter keep =
      (elements.takeWhile below).filter keep ++ (elements.dropWhile below).filter keep := by
    rw [← filter_append, takeWhile_append_dropWhile]
  have front : ∀ element ∈ elements.takeWhile below, below element = true :=
    fun _ member => mem_takeWhile_imp member
  have back : ∀ element ∈ elements.dropWhile below, below element = false :=
    fun _ member => partitioned.not_below_of_mem_dropWhile member
  constructor
  · rw [split, filter_eq_self.mpr front, filter_eq_nil_iff.mpr (by simpa using back), append_nil]
  · rw [split, filter_eq_nil_iff.mpr (by simpa using front), nil_append,
      filter_eq_self.mpr (by simpa using back)]

end

end LightKV.LowerBound
