import Mathlib.Data.List.Sort

/-!
# `std::sort`

The library sorts a range by a strict weak order and leaves the order of equivalent
elements open. A `StdSort` is any function that does what is promised: it rearranges the
list, and no element of the result is less than one in front of it. Results about code
that sorts are stated for an arbitrary `StdSort`; insertion sort, which the library itself
uses on short ranges, is one.
-/

namespace LightKV

universe u

variable {α : Type u}

/-- A function with the documented behaviour of `std::sort` for the order `less`. -/
structure StdSort (less : α → α → Bool) where
  /-- The sorted range. -/
  sort : List α → List α
  perm : ∀ elements, (sort elements).Perm elements
  ordered : ∀ elements, (sort elements).Pairwise fun first second => less second first = false

/-- A strict weak order: equivalence and order are transitive and any two elements are
comparable in one direction at most. -/
structure StrictWeak (less : α → α → Bool) : Prop where
  trans : ∀ first second third, less second first = false → less third second = false →
    less third first = false
  total : ∀ first second, less second first = false ∨ less first second = false

namespace StdSort

variable {less : α → α → Bool}

theorem mem_sort (sorter : StdSort less) : element ∈ sorter.sort elements ↔ element ∈ elements :=
  (sorter.perm elements).mem_iff

/-- Insertion sort for a strict weak order. -/
def insertion (weak : StrictWeak less) : StdSort less where
  sort := List.insertionSort fun first second => less second first = false
  perm := List.perm_insertionSort _
  ordered elements := by
    have : IsTrans α fun first second => less second first = false := ⟨weak.trans⟩
    have : Std.Total fun first second : α => less second first = false := ⟨weak.total⟩
    exact List.pairwise_insertionSort _ elements

end StdSort

end LightKV
