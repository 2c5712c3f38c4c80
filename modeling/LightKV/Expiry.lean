import LightKV.Resp
import Mathlib.Data.List.Sort

/-!
# Keys with an expiry

The rows of the database carry data of several types under names of their own. The expiry of a key
is such a row, under `ttl_key`. `expire_if_needed` removes a key whose expiry has passed, together
with its expiry and the rows of a sorted set of that name.
-/

namespace LightKV.Expiry

open Resp List

/-- The rows of the database. -/
abbrev Rows := List (Bytes × Bytes)

/-! ## Names -/

def ttlFront : Bytes := 1 :: ascii "_ttl_"

/-- `ttl_key`. -/
def ttlKey (key : Bytes) : Bytes := ttlFront ++ 0 :: key

def hashPrefix : Bytes := 2 :: ascii "_hash_"

def listPrefix : Bytes := 3 :: ascii "_list_"

def setPrefix : Bytes := 4 :: ascii "_set_"

def zsetPrefix : Bytes := 5 :: ascii "_zset_"

/-- `hash_meta_key`, `list_meta_key` and `zset_meta_key`. -/
def metaKey (front name : Bytes) : Bytes := front ++ name ++ ascii ":__meta__"

/-- `is_internal_key`. -/
def isInternalKey (key : Bytes) : Bool :=
  key.head? == some 1 ||
    [hashPrefix, listPrefix, setPrefix, zsetPrefix].any (·.isPrefixOf key)

/-- The rows of a sorted set. -/
def ofZset (name key : Bytes) : Bool :=
  (zsetPrefix ++ name ++ ascii ":member:").isPrefixOf key ||
    (zsetPrefix ++ name ++ ascii ":score:").isPrefixOf key || key == metaKey zsetPrefix name

namespace Rows

variable (rows : Rows)

/-- `Get`. -/
def get (key : Bytes) : Option Bytes := (rows.find? (·.1 = key)).map (·.2)

/-- `Delete`. -/
def delete (key : Bytes) : Rows := rows.filter fun row => row.1 ≠ key

/-- `Put`. -/
def put (key value : Bytes) : Rows := (key, value) :: rows.delete key

/-- The names that are not internal, in order. -/
def names : List Bytes :=
  ((rows.map (·.1)).filter fun key => !isInternalKey key).insertionSort (· ≤ ·)

/-- `erase_zset`. -/
def eraseZset (name : Bytes) : Rows :=
  if (rows.get (metaKey zsetPrefix name)).isSome then rows.filter fun row => !ofZset name row.1
  else rows

/-- What goes with an expired key. -/
def forget (key : Bytes) : Rows :=
  ((rows.delete key).delete (ttlKey key)).eraseZset key

/-- The stored expiry of a key, in milliseconds. -/
def expiry (key : Bytes) : Option Int := (rows.get (ttlKey key)).bind stoll

/-- The expiry of a key has passed. -/
def due (now : Int) (rows : Rows) (key : Bytes) : Bool := (rows.expiry key).any (· ≤ now)

/-- `expire_if_needed`. -/
def expireIfNeeded (now : Int) (rows : Rows) (key : Bytes) : Rows :=
  if rows.due now key then rows.forget key else rows

end Rows

/-- The value that GET answers. -/
def handleGet (now : Int) (rows : Rows) (key : Bytes) : Option Bytes :=
  (rows.expireIfNeeded now key).get key

/-- A key with an expiry at 100, and one without. -/
def expiring : Rows :=
  [(ascii "s", ascii "b"), (ascii "k", ascii "a"), (ttlKey (ascii "k"), ascii "100")]

/-! ## Rows and their names -/

section Lookups

variable {rows : Rows}

/-- Deleting rows by name leaves the others. -/
theorem get_filter (name : Bytes) (keep : Bytes → Bool) :
    Rows.get (rows.filter fun row => keep row.1) name =
      if keep name then rows.get name else none := by
  induction rows with
  | nil => simp [Rows.get]
  | cons row _ _ => by_cases same : row.1 = name <;> cases kept : keep row.1 <;> simp_all [Rows.get]

@[simp] theorem get_delete :
    (rows.delete key).get name = if name = key then none else rows.get name := by
  simpa [Rows.delete] using get_filter name fun name => name ≠ key

@[simp] theorem get_put :
    (rows.put key value).get name = if name = key then some value else rows.get name := by
  have deleted := @get_delete rows key name
  by_cases same : key = name <;> simp_all [Rows.put, Rows.get, eq_comm]

/-- The rows of a sorted set are internal keys. -/
theorem isInternalKey_of_ofZset (found : ofZset name key = true) : isInternalKey key = true := by
  have front : zsetPrefix <+: key := by
    simp only [ofZset, Bool.or_eq_true, isPrefixOf_iff_prefix, beq_iff_eq] at found
    rcases found with (found | found) | rfl
    · exact (prefix_append ..).trans found
    · exact (prefix_append ..).trans found
    · exact prefix_append ..
  simp [isInternalKey, front]

theorem not_ofZset (visible : isInternalKey name = false) : ofZset key name = false :=
  Bool.eq_false_iff.mpr fun found => by simp [isInternalKey_of_ofZset found] at visible

/-- A sorted set takes only its own rows with it. -/
theorem get_eraseZset (outside : ofZset key name = false) :
    (rows.eraseZset key).get name = rows.get name := by
  unfold Rows.eraseZset
  split
  · simp [get_filter name fun name => !ofZset key name, outside]
  · rfl

/-- A key that is forgotten takes its deadline with it. -/
theorem get_forget (outside : ofZset key name = false) :
    (rows.forget key).get name =
      if name = ttlKey key ∨ name = key then none else rows.get name := by
  simp [Rows.forget, get_eraseZset outside, ← ite_or]

theorem get_forget_zset : (rows.forget key).get (metaKey zsetPrefix key) = none := by
  unfold Rows.forget Rows.eraseZset
  split
  · rw [get_filter _ fun other => !ofZset key other]
    simp [ofZset]
  · simp_all

/-- No user key is a deadline. -/
theorem ne_ttlKey (visible : isInternalKey name = false) : name ≠ ttlKey key := by
  rintro rfl
  cases visible

/-- Each key has its own deadline. -/
theorem ttlKey_inj : ttlKey key = ttlKey name ↔ key = name := by
  simp [ttlKey]

end Lookups

end LightKV.Expiry
