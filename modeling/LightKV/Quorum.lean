import Mathlib.Data.List.Basic

/-!
# Majorities of a list of members

A majority is counted over a list, so a member listed twice counts twice. Two
majorities of one list have a member in common; nothing else about elections is used
here.
-/

namespace LightKV.Quorum

open List

universe u

variable {α : Type u}

/-- More than half of the members satisfy `chosen`. -/
def Majority (members : List α) (chosen : α → Bool) : Prop :=
  members.length / 2 + 1 ≤ members.countP chosen

variable {first second : α → Bool}

theorem countP_add_countP_le {members : List α}
    (disjoint : ∀ member ∈ members, first member = true → second member = false) :
    members.countP first + members.countP second ≤ members.length := by
  induction members with
  | nil => simp
  | cons member _ ih =>
    have smaller := ih fun other inside => disjoint other (mem_cons_of_mem _ inside)
    have here := disjoint member mem_cons_self
    simp only [countP_cons, length_cons]
    cases chosen : first member with
    | true =>
      rw [here chosen]
      simp only [if_true, Bool.false_eq_true, if_false]
      omega
    | false =>
      simp only [Bool.false_eq_true, if_false]
      split <;> omega

/-- Two majorities of one list share a member. -/
theorem exists_common (majority : Majority members first) (other : Majority members second) :
    ∃ member ∈ members, first member = true ∧ second member = true := by
  by_contra separate
  have disjoint : ∀ member ∈ members, first member = true → second member = false := by
    intro member inside chosen
    by_contra also
    exact separate ⟨member, inside, chosen, by simpa using also⟩
  have bound := countP_add_countP_le disjoint
  unfold Majority at majority other
  omega

/-- A majority stays one when more members are chosen. -/
theorem Majority.mono (majority : Majority members first)
    (more : ∀ member ∈ members, first member = true → second member = true) :
    Majority members second := Nat.le_trans majority (countP_mono_left more)

/-- A tally that leaves out one chosen member and counts it as a vote of its own does
not exceed the count of all chosen members. -/
theorem succ_countP_le {members : List α}
    (inside : own ∈ members) (own_chosen : chosen own = true) (own_left_out : counted own = false)
    (weaker : ∀ member ∈ members, counted member = true → chosen member = true) :
    members.countP counted + 1 ≤ members.countP chosen := by
  induction members with
  | nil => simp at inside
  | cons member rest ih =>
    have rest_weaker : ∀ other ∈ rest, counted other = true → chosen other = true :=
      fun other present => weaker other (mem_cons_of_mem _ present)
    simp only [countP_cons]
    rcases mem_cons.mp inside with rfl | present
    · have rest_le := countP_mono_left rest_weaker
      simp only [own_chosen, own_left_out, if_true, Bool.false_eq_true, if_false]
      omega
    have smaller := ih present rest_weaker
    have here := weaker member mem_cons_self
    cases counted_here : counted member with
    | true =>
      rw [here counted_here]
      omega
    | false =>
      simp only [Bool.false_eq_true, if_false]
      omega

end LightKV.Quorum
