import Mathlib.Data.List.Induction
import LightKV.MemTable

/-!
# The abstract map

What the database is for: a map from keys to values. A put binds a key, a deletion unbinds
it, a range deletion unbinds every key of its range, and operations are applied one after
another. The value of a key after a list of operations is decided by the last operation
that touches it.
-/

namespace LightKV

open Versions List Option

/-- A map from keys to values. -/
abbrev Store := Bytes → Option Bytes

namespace BatchOp

/-- The operations that concern a key. -/
def touches (key : Bytes) : BatchOp → Bool
  | .value written _ => decide (written = key)
  | .deletion written => decide (written = key)
  | .rangeDeletion beginKey endKey => RangeTombstone.spans ⟨beginKey, endKey, 0⟩ key

/-- What an operation makes of the keys it touches. -/
def outcome : BatchOp → Option Bytes
  | .value _ written => some written
  | _ => none

/-- The last operation of a list that touches a key. -/
def lastTouch (ops : List BatchOp) (key : Bytes) : Option BatchOp :=
  (ops.filter (touches key)).getLast?

theorem lastTouch_concat :
    lastTouch (ops ++ [op]) key = if op.touches key then some op else lastTouch ops key := by
  by_cases touched : op.touches key = true <;> simp [lastTouch, touched]

theorem lastTouch_cons :
    lastTouch (op :: ops) key =
      (lastTouch ops key).or (if op.touches key then some op else none) := by
  unfold lastTouch
  rw [filter_cons]
  by_cases touched : op.touches key = true
  · rw [if_pos touched, if_pos touched, getLast?_cons]
    cases (ops.filter (touches key)).getLast? <;> rfl
  · rw [if_neg touched, if_neg touched, or_none]

theorem lastTouch_append :
    lastTouch (front ++ back) key = (lastTouch back key).or (lastTouch front key) := by
  unfold lastTouch
  rw [filter_append, getLast?_append]

/-- Of numbered lists, one after another, the last one that touches the key decides. -/
theorem lastTouch_flatMap_range {made : Nat → List BatchOp} {key : Bytes} {count : Nat} :
    (lastTouch ((range count).flatMap made) key = none ∧
        ∀ seq < count, lastTouch (made seq) key = none) ∨
      ∃ seq < count, lastTouch (made seq) key ≠ none ∧
        lastTouch ((range count).flatMap made) key = lastTouch (made seq) key ∧
        ∀ later < count, seq < later → lastTouch (made later) key = none := by
  induction count with
  | zero => exact .inl ⟨rfl, fun _ impossible => absurd impossible (Nat.not_lt_zero _)⟩
  | succ count ih =>
    have split : (range (count + 1)).flatMap made = (range count).flatMap made ++ made count := by
      rw [range_succ, flatMap_append, flatMap_singleton]
    rw [split, lastTouch_append]
    cases last : lastTouch (made count) key with
    | some op =>
      refine .inr ⟨count, Nat.lt_succ_self _, ?_, ?_, ?_⟩
      · rw [last]
        exact some_ne_none op
      · rw [last, some_or]
      · omega
    | none =>
      rcases ih with ⟨untouched, all⟩ | ⟨seq, below, touched, decided, quiet⟩
      · refine .inl ⟨untouched, ?_⟩
        intro seq bound
        rcases Nat.lt_succ_iff_lt_or_eq.mp bound with lower | rfl
        · exact all seq lower
        · exact last
      refine .inr ⟨seq, Nat.lt_succ_of_lt below, touched, decided, ?_⟩
      intro later bound above
      rcases Nat.lt_succ_iff_lt_or_eq.mp bound with lower | rfl
      · exact quiet later lower above
      · exact last

end BatchOp

namespace Store

/-- The map without bindings. -/
def empty : Store := fun _ => none

/-- One operation. -/
def apply (store : Store) (op : BatchOp) : Store :=
  fun key => if op.touches key then op.outcome else store key

/-- Operations one after another. -/
def applyAll (store : Store) (ops : List BatchOp) : Store :=
  ops.foldl apply store

/-- What a reader of the map is told. -/
def answer (store : Store) (key : Bytes) : Except Status Bytes :=
  match store key with
  | some value => .ok value
  | none => .error (.notFound "")

theorem applyAll_eq {store : Store} :
    store.applyAll ops key =
      match BatchOp.lastTouch ops key with
      | some op => op.outcome
      | none => store key := by
  induction ops using reverseRecOn with
  | nil => rfl
  | append_singleton ops op ih =>
    have step : store.applyAll (ops ++ [op]) = (store.applyAll ops).apply op := foldl_concat ..
    rw [step, apply, BatchOp.lastTouch_concat, ih]
    by_cases touched : op.touches key = true <;> simp [touched]

/-- The answer for a key behind operations, from the answer in front of them. -/
def answerAfter (ops : List BatchOp) (key : Bytes) (before : Except Status Bytes) :
    Except Status Bytes :=
  match BatchOp.lastTouch ops key with
  | some op =>
      match op.outcome with
      | some value => .ok value
      | none => .error (.notFound "")
  | none => before

theorem answer_applyAll {store : Store} :
    (store.applyAll ops).answer key = answerAfter ops key (store.answer key) := by
  unfold answer answerAfter
  rw [applyAll_eq]
  cases BatchOp.lastTouch ops key <;> rfl

end Store

/-! ## Points and tombstones of operations -/

namespace BatchOp

variable {ops : List BatchOp} {key : Bytes}

section

variable {op : BatchOp} {seq : Nat} {entry : Entry} (point : op.point seq = some entry)
include point

theorem touches_of_point : op.touches entry.key = true := by
  cases op with
  | value _ _ | deletion _ =>
    simp only [BatchOp.point, some.injEq] at point
    simp [← point, touches]
  | rangeDeletion _ _ => simp [BatchOp.point] at point

theorem key_of_touches (touched : op.touches key = true) : entry.key = key := by
  cases op with
  | value _ _ | deletion _ =>
    rw [← some.inj point]
    simpa [touches] using touched
  | rangeDeletion _ _ => simp [BatchOp.point] at point

theorem seq_of_point : entry.seq = seq := by
  cases op with
  | value _ _ | deletion _ => rw [← some.inj point]
  | rangeDeletion _ _ => simp [BatchOp.point] at point

end

/-- The last point of a key comes from the last operation that touches the key, if that
operation makes a point. -/
theorem getLast_points (seq : Nat) (last : lastTouch ops key = some op)
    (point : op.point seq = some entry) :
    (ofKey Entry.key key (ops.filterMap (BatchOp.point seq))).getLast? = some entry := by
  induction ops using reverseRecOn with
  | nil => simp [lastTouch] at last
  | append_singleton _ next ih =>
    rw [lastTouch_concat] at last
    rw [filterMap_append, ofKey_append]
    by_cases touched : next.touches key = true
    · rw [if_pos touched, some.injEq] at last
      subst last
      have same := key_of_touches point touched
      simp [point, ofKey_cons, same]
    rw [if_neg touched] at last
    have skipped : ofKey Entry.key key ([next].filterMap (BatchOp.point seq)) = [] := by
      cases next with
      | value written _ | deletion written =>
        have other : ¬ written = key := by simpa [touches] using touched
        simp [BatchOp.point, ofKey_cons, other]
      | rangeDeletion _ _ => rfl
    rw [skipped, append_nil]
    exact ih last

/-- A point of a key is made by an operation that touches the key. -/
theorem exists_touch_of_point (member : entry ∈ ops.filterMap (BatchOp.point seq)) :
    ∃ op ∈ ops, op.point seq = some entry ∧ op.touches entry.key = true := by
  obtain ⟨op, inside, point⟩ := mem_filterMap.mp member
  exact ⟨op, inside, point, touches_of_point point⟩

theorem lastTouch_isSome (member : op ∈ ops) (touched : op.touches key = true) :
    ∃ last, lastTouch ops key = some last := by
  have inside : op ∈ ops.filter (touches key) := mem_filter.mpr ⟨member, touched⟩
  exact ⟨_, getLast?_eq_some_getLast (ne_nil_of_mem inside)⟩

theorem mem_of_lastTouch (last : lastTouch ops key = some op) : op ∈ ops ∧ op.touches key = true :=
  mem_filter.mp (mem_of_getLast? last)

/-- A tombstone of the operations spans a key exactly when a range deletion touches it. -/
theorem any_spans_iff :
    ((ops.filterMap (BatchOp.tombstone seq)).any fun tombstone => tombstone.spans key) = true ↔
      ∃ op ∈ ops, op.point seq = none ∧ op.touches key = true := by
  rw [List.any_eq_true]
  constructor
  · rintro ⟨_, member, spans⟩
    obtain ⟨op, inside, made⟩ := mem_filterMap.mp member
    cases op with
    | rangeDeletion _ _ =>
      simp only [BatchOp.tombstone, some.injEq] at made
      exact ⟨_, inside, rfl, by rw [← made] at spans; exact spans⟩
    | value written _ | deletion _ => simp [BatchOp.tombstone] at made
  · rintro ⟨op, inside, pointless, touched⟩
    cases op with
    | rangeDeletion beginKey endKey =>
      exact ⟨⟨beginKey, endKey, seq⟩, mem_filterMap.mpr ⟨_, inside, rfl⟩, touched⟩
    | value _ _ | deletion _ => simp [BatchOp.point] at pointless

end BatchOp

end LightKV
