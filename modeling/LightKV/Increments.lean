import Mathlib.Algebra.BigOperators.Fin
import LightKV.Runs

/-!
# Concurrent increments

`Increment` reads the stored number with one call of the database and writes the sum with another.
The workers of the pool take commands at the same time and hold no lock across the two calls, so
the calls of several commands may come in any order. Of the value only the number counts: a missing
key counts as 0, and under a value that is no number every command fails.
-/

namespace LightKV.Increments

open Runs List

/-- The number under the key, what the commands between their calls have read, and the replies in
the order in which they are made. -/
structure Counter (n : Nat) where
  stored : Int
  read : Fin n → Option Int := fun _ => none
  replies : List (Fin n × Int) := []

namespace Counter

variable {delta : Fin n → Int} {counter : Counter n}

/-- The commands that have replied. -/
def replied (counter : Counter n) : List (Fin n) := counter.replies.map (·.1)

/-- The next call of a command: its `Get`, or its `Put` and the reply. -/
def step (delta : Fin n → Int) (counter : Counter n) (command : Fin n) : Counter n :=
  if command ∈ counter.replied then counter
  else
    match counter.read command with
    | none => { counter with read := Function.update counter.read command (some counter.stored) }
    | some current =>
        let value := (current + delta command).bmod (2 ^ 64)
        { counter with stored := value, replies := counter.replies ++ [(command, value)] }

/-- A command that is about to write finds the number that it has read, and does not overflow. -/
def Undisturbed (delta : Fin n → Int) (counter : Counter n) (command : Fin n) : Prop :=
  command ∉ counter.replied → ∀ current ∈ counter.read command, counter.stored = current ∧
    -2 ^ 63 ≤ current + delta command ∧ current + delta command < 2 ^ 63

/-- The initial number and the deltas of the commands behind some replies. -/
def total (delta : Fin n → Int) (initial : Int) (replies : List (Fin n × Int)) : Int :=
  initial + ((replies.map (·.1)).map delta).sum

/-- Each reply counts the commands that replied up to it, and the stored number all of them. -/
structure Counted (delta : Fin n → Int) (initial : Int) (counter : Counter n) : Prop where
  once : counter.replied.Nodup
  sums : ∀ earlier reply, earlier ++ [reply] <+: counter.replies →
    reply.2 = total delta initial (earlier ++ [reply])
  stored : counter.stored = total delta initial counter.replies

theorem Counted.step (counted : Counted delta initial counter)
    (undisturbed : counter.Undisturbed delta command) :
    Counted delta initial (counter.step delta command) := by
  unfold Counter.step
  split
  · exact counted
  rename_i first
  cases found : counter.read command with
  | none => exact ⟨counted.once, counted.sums, counted.stored⟩
  | some current =>
    obtain ⟨rfl, low, high⟩ := undisturbed first current found
    have sum_eq : (counter.stored + delta command).bmod (2 ^ 64) = counter.stored + delta command :=
      Int.bmod_eq_of_le low high
    dsimp only
    generalize (counter.stored + delta command).bmod (2 ^ 64) = value at sum_eq
    have value_eq : value = total delta initial (counter.replies ++ [(command, value)]) := by
      simp [sum_eq, counted.stored, total, add_assoc]
    refine ⟨by simpa [replied] using counted.once.concat first, ?_, value_eq⟩
    intro earlier reply inside
    rcases prefix_concat_iff.mp inside with whole | before
    · cases (append_inj' whole rfl).2
      rw [whole]
      exact value_eq
    · exact counted.sums earlier reply before

/-- No increment is lost while no command writes between the two calls of another: the replies are
the sums over the commands in the order of the replies, and the last sum is stored. -/
theorem increments_counted (delta : Fin n → Int) (initial : Int) (schedule : List (Fin n))
    (undisturbed : Meets (step delta) (Undisturbed delta) { stored := initial } schedule)
    (answered : ∀ command, command ∈ (run (step delta) { stored := initial } schedule).replied) :
    let final := run (step delta) { stored := initial } schedule
    final.stored = initial + ∑ command, delta command ∧ final.replied ~ finRange n ∧
      ∀ earlier reply, earlier ++ [reply] <+: final.replies →
        reply.2 = total delta initial (earlier ++ [reply]) := by
  have start : Counted delta initial { stored := initial } :=
    ⟨nodup_nil, by simp, by simp [total]⟩
  have counted := undisturbed.invariant start fun _ _ => Counted.step
  have all := (perm_ext_iff_of_nodup counted.once (nodup_finRange n)).mpr fun command => by
    simp [answered command]
  refine ⟨?_, all, counted.sums⟩
  rw [Fin.sum_univ_def, ← (all.map delta).sum_eq]
  exact counted.stored

/-- Two commands, one behind the other. -/
theorem increments_counted_in_turn :
    let final := run (step fun _ => 1) ({ stored := 5 } : Counter 2) [0, 0, 1, 1]
    final.stored = 7 ∧ final.replied ~ [0, 1] := by
  have counted := increments_counted (fun _ : Fin 2 => 1) 5 [0, 0, 1, 1]
    (by unfold Undisturbed; decide) (by decide)
  exact ⟨counted.1, counted.2.1⟩

/-- Two commands that both read before they write reply the same number, and one of them is
lost. -/
theorem increment_lost :
    let final := run (step fun _ => 1) ({ stored := 0 } : Counter 2) [0, 1, 0, 1]
    final.replies = [(0, 1), (1, 1)] ∧ final.stored = 1 := by
  decide

end Counter

end LightKV.Increments
