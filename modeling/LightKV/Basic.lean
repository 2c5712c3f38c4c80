import Mathlib.Algebra.GroupWithZero.Nat
import Mathlib.Data.List.Lex
import Mathlib.Order.Basic

/-!
# Byte strings and status codes

Keys, values, commands and snapshot images are `std::string` or `Slice` values in
the source. They are lists of bytes here. The source orders keys with `memcmp` on
the common length and then by size; that is the lexicographic order on lists of
bytes, and `compare_neg_iff` is the statement that lets every later module write
`<` on keys where the source writes `compare(...) < 0`.
-/

namespace LightKV

/-- Bytes are compared as unsigned numbers, as `memcmp` compares them. -/
instance instLinearOrderUInt8 : LinearOrder UInt8 where
  le_refl := UInt8.le_refl
  le_trans _ _ _ := UInt8.le_trans
  le_antisymm _ _ := UInt8.le_antisymm
  le_total := UInt8.le_total
  lt_iff_le_not_ge := by
    intro first second
    simp only [UInt8.lt_iff_toNat_lt, UInt8.le_iff_toNat_le]
    omega
  toDecidableLE := inferInstance
  toDecidableLT := inferInstance
  toDecidableEq := inferInstance
  compare_eq_compareOfLessAndEq _ _ := rfl
  min_def _ _ := rfl
  max_def _ _ := rfl

/-- A `Slice` or `std::string`, by content. -/
abbrev Bytes := List UInt8

/-- The result of a fallible call. `ok` carries no message; the other codes carry
the text given at the point of failure. -/
inductive Status where
  | ok
  | notFound (message : String)
  | corruption (message : String)
  | notSupported (message : String)
  | invalidArgument (message : String)
  | ioError (message : String)
  deriving DecidableEq, Repr

/-- `Status::ok`. -/
def Status.isOk (status : Status) : Bool :=
  decide (status = .ok)

namespace Slice

/-- `memcmp` on the first `count` bytes: the sign of the first difference. -/
def memcmp : Bytes → Bytes → Nat → Int
  | first :: firsts, second :: seconds, count + 1 =>
      if first < second then -1
      else if second < first then 1
      else memcmp firsts seconds count
  | _, _, _ => 0

/-- `Slice::compare`: the common prefix decides, then the sizes. -/
def compare (first second : Bytes) : Int :=
  let common := memcmp first second (min first.length second.length)
  if common ≠ 0 then common
  else if first.length < second.length then -1
  else if second.length < first.length then 1
  else 0

theorem compare_cons_self : compare (byte :: first) (byte :: second) = compare first second := by
  simp only [compare, List.length_cons, Nat.add_min_add_right, memcmp, lt_irrefl, if_false,
    Nat.add_lt_add_iff_right]

theorem compare_cons_ne (different : left ≠ right) :
    compare (left :: first) (right :: second) = if left < right then -1 else 1 := by
  simp only [compare, List.length_cons, Nat.add_min_add_right, memcmp]
  rcases lt_or_gt_of_ne different with below | above
  · simp [below]
  · simp [above, not_lt_of_gt above]

theorem compare_iff (first second : Bytes) : (compare first second < 0 ↔ first < second) ∧
    (compare first second = 0 ↔ first = second) := by
  induction first generalizing second with
  | nil => cases second <;> simp [compare, memcmp]
  | cons left _ ih =>
    cases second with
    | nil => simp [compare, memcmp]
    | cons right rest =>
      by_cases same : left = right
      · subst same
        rw [compare_cons_self, (ih rest).1, (ih rest).2]
        simp
      · rw [compare_cons_ne same, List.cons_lt_cons_iff]
        by_cases below : left < right <;> simp [below, same]

/-- `compare` is negative exactly when the first key is smaller in the
lexicographic order of bytes. -/
theorem compare_neg_iff (first second : Bytes) : compare first second < 0 ↔ first < second :=
  (compare_iff first second).1

theorem compare_eq_zero_iff (first second : Bytes) : compare first second = 0 ↔ first = second :=
  (compare_iff first second).2

end Slice

/-- Membership in a family of lists one of which is extended. -/
theorem mem_update_append {α : Type} {files : Nat → List α} {level other : Nat} {added : List α}
    {entry : α} :
    entry ∈ Function.update files level (files level ++ added) other ↔
      entry ∈ files other ∨ other = level ∧ entry ∈ added := by
  by_cases same : other = level
  · subst same
    simp
  · simp [same]

end LightKV
