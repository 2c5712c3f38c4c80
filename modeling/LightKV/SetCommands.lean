import Mathlib.Data.Finset.Sort
import LightKV.Expiry
import LightKV.Runs

/-!
# Sets in one row

A set is one row: its members, each with a zero byte behind it. A command reads the row, works on
a `std::set` and writes the whole row again. A member that contains a zero byte is therefore read
back as two members, and the commands are those of finite sets only while no member contains one.
-/

namespace LightKV.SetCommands

open Expiry List Function Runs

/-- `set_blob_key`. -/
def setBlobKey (name : Bytes) : Bytes := setPrefix ++ name

/-- The members in a blob, with the bytes in front of it that no zero byte has ended. -/
def parseFrom (piece : Bytes) : Bytes → List Bytes
  | [] => if piece = [] then [] else [piece]
  | 0 :: rest => piece :: parseFrom [] rest
  | byte :: rest => parseFrom (piece ++ [byte]) rest

/-- `parse_set_blob`. -/
def parseSetBlob (blob : Bytes) : List Bytes := parseFrom [] blob

/-- `encode_set_blob`. -/
def encodeSetBlob (elems : List Bytes) : Bytes := elems.flatMap (· ++ [0])

/-- The members in the row of a set; a set without a row has none. -/
def elements (rows : Rows) (name : Bytes) : List Bytes :=
  ((rows.get (setBlobKey name)).map parseSetBlob).getD []

/-- The `std::set` of these members. -/
def sets (rows : Rows) (name : Bytes) : Finset Bytes := (elements rows name).toFinset

/-- Write the row of a set, or delete it when no member is left. -/
def store (rows : Rows) (name : Bytes) (elems : List Bytes) : Rows :=
  if elems = [] then rows.delete (setBlobKey name)
  else rows.put (setBlobKey name) (encodeSetBlob elems)

/-! ## Commands -/

inductive Command where
  | sadd (name first : Bytes) (rest : List Bytes)
  | srem (name first : Bytes) (rest : List Bytes)
  | spop (name : Bytes)
  | smove (source destination member : Bytes)
  | smembers (name : Bytes)
  | sismember (name member : Bytes)
  | scard (name : Bytes)

inductive Reply where
  | integer (number : Nat)
  | bulk (value : Option Bytes)
  | array (elems : List Bytes)
  deriving DecidableEq

/-- Insert or erase members one after another, and count how often the set changes. -/
def changeAll (change : Bytes → Finset Bytes → Finset Bytes) (set : Finset Bytes) :
    List Bytes → Finset Bytes × Nat
  | [] => (set, 0)
  | member :: rest =>
      let later := changeAll change (change member set) rest
      (later.1, if change member set = set then later.2 else later.2 + 1)

/-- One command: its reply, and the rows behind it. -/
def execute (rows : Rows) : Command → Reply × Rows
  | .sadd name first rest =>
      let added := changeAll insert (sets rows name) (first :: rest)
      (.integer added.2, rows.put (setBlobKey name) (encodeSetBlob added.1.sort))
  | .srem name first rest =>
      if rows.get (setBlobKey name) = none then (.integer 0, rows)
      else
        let removed :=
          changeAll (fun member set => set.erase member) (sets rows name) (first :: rest)
        (.integer removed.2, store rows name removed.1.sort)
  | .spop name =>
      match (elements rows name).getLast? with
      | none => (.bulk none, rows)
      | some popped => (.bulk (some popped), store rows name (elements rows name).dropLast)
  | .smove source destination member =>
      if member ∈ sets rows source then
        let removed := store rows source ((sets rows source).erase member).sort
        (.integer 1, removed.put (setBlobKey destination)
          (encodeSetBlob (insert member (sets removed destination)).sort))
      else (.integer 0, rows)
  | .smembers name => (.array (elements rows name), rows)
  | .sismember name member => (.integer (if member ∈ sets rows name then 1 else 0), rows)
  | .scard name => (.integer (elements rows name).length, rows)

/-- The rows behind a command. -/
def step (rows : Rows) (command : Command) : Rows := (execute rows command).2

/-! ## Finite sets -/

/-- What a command does to named finite sets. -/
def Reference (sets : Bytes → Finset Bytes) (reply : Reply) (later : Bytes → Finset Bytes) :
    Command → Prop
  | .sadd name first rest =>
      reply = .integer ((first :: rest).toFinset \ sets name).card ∧
        later = update sets name (sets name ∪ (first :: rest).toFinset)
  | .srem name first rest =>
      reply = .integer (sets name ∩ (first :: rest).toFinset).card ∧
        later = update sets name (sets name \ (first :: rest).toFinset)
  | .spop name =>
      sets name = ∅ ∧ reply = .bulk none ∧ later = sets ∨
        ∃ popped ∈ sets name, reply = .bulk (some popped) ∧
          later = update sets name ((sets name).erase popped)
  | .smove source destination member =>
      if member ∈ sets source then
        reply = .integer 1 ∧ later = update (update sets source ((sets source).erase member))
          destination (insert member (sets destination))
      else reply = .integer 0 ∧ later = sets
  | .smembers name =>
      (∃ elems : List Bytes, elems.Nodup ∧ elems.toFinset = sets name ∧ reply = .array elems) ∧
        later = sets
  | .sismember name member =>
      reply = .integer (if member ∈ sets name then 1 else 0) ∧ later = sets
  | .scard name => reply = .integer (sets name).card ∧ later = sets

/-- The members that a command adds; SMOVE finds its member in a set. -/
def Command.added : Command → List Bytes
  | .sadd _ first rest => first :: rest
  | .srem _ _ _ | .spop _ | .smove _ _ _ | .smembers _ | .sismember _ _ | .scard _ => []

/-- No member contains a zero byte. -/
def Clean (members : Finset Bytes) : Prop := ∀ member ∈ members, 0 ∉ member
  deriving Decidable

/-- In every set each member is listed once and contains no zero byte. -/
def Sound (rows : Rows) : Prop := ∀ name, (elements rows name).Nodup ∧ Clean (sets rows name)

theorem parseFrom_append (clean : 0 ∉ member) :
    parseFrom piece (member ++ 0 :: rest) = (piece ++ member) :: parseFrom [] rest := by
  induction member generalizing piece with
  | nil => simp [parseFrom]
  | cons byte _ ih =>
    obtain ⟨other, clean⟩ := not_or.mp (mem_cons.not.mp clean)
    rw [cons_append, parseFrom, ih clean, append_assoc]
    · rfl
    · exact fun zero => other zero.symm

/-- Members without a zero byte are read back as they were. -/
theorem parse_encode (clean : Clean elems.toFinset) :
    parseSetBlob (encodeSetBlob elems) = elems := by
  unfold parseSetBlob encodeSetBlob
  induction elems with
  | nil => rfl
  | cons member _ ih =>
    rw [toFinset_cons, Clean, Finset.forall_mem_insert] at clean
    rw [flatMap_cons, append_assoc, singleton_append, parseFrom_append clean.1, ih clean.2]
    rfl

section Writes

variable {rows : Rows} {name : Bytes}

theorem elements_put (clean : Clean elems.toFinset) :
    elements (rows.put (setBlobKey name) (encodeSetBlob elems)) =
      update (elements rows) name elems := by
  funext other
  by_cases same : other = name
  · simp [same, elements, parse_encode clean]
  · simp [same, elements, setBlobKey]

theorem elements_store (clean : Clean elems.toFinset) :
    elements (store rows name elems) = update (elements rows) name elems := by
  unfold store
  split
  · rename_i empty
    funext other
    by_cases same : other = name
    · simp [same, elements, empty]
    · simp [same, elements, setBlobKey]
  · exact elements_put clean

/-- What holds when a set is written anew. -/
theorem Sound.write (sound : Sound rows) (nodup : elems.Nodup) (clean : Clean elems.toFinset)
    (written : elements later = update (elements rows) name elems) :
    Sound later ∧ sets later = update (sets rows) name elems.toFinset := by
  constructor
  · unfold Sound sets
    rw [written]
    exact (forall_update_iff (elements rows) fun _ held => held.Nodup ∧ Clean held.toFinset).mpr
      ⟨⟨nodup, clean⟩, fun name _ => sound name⟩
  · change toFinset ∘ elements later = _
    rw [written, comp_update]
    rfl

/-- So it is with the elements of a `std::set`. -/
theorem Sound.write_sort {set : Finset Bytes} (sound : Sound rows) (clean : Clean set)
    (written : Clean set.sort.toFinset → elements later = update (elements rows) name set.sort) :
    Sound later ∧ sets later = update (sets rows) name set := by
  rw [← set.sort_toFinset (· ≤ ·)] at clean
  simpa using sound.write (set.sort_nodup _) clean (written clean)

end Writes

theorem card_insert (member : Bytes) (set : Finset Bytes) :
    (insert member set).card = (set.erase member).card + 1 := by
  rw [← Finset.card_erase_add_one (Finset.mem_insert_self member set),
    Finset.erase_insert_eq_erase]

theorem insertAll_eq (members : List Bytes) (set : Finset Bytes) :
    changeAll insert set members = (set ∪ members.toFinset, (members.toFinset \ set).card) := by
  induction members generalizing set with
  | nil => simp [changeAll]
  | cons member rest ih =>
    by_cases inside : member ∈ set
    · simp [changeAll, ih, inside, Finset.insert_sdiff_of_mem]
    · simp [changeAll, ih, inside, Finset.insert_sdiff_of_notMem, Finset.sdiff_insert, card_insert]

theorem eraseAll_eq (members : List Bytes) (set : Finset Bytes) :
    changeAll (fun member set => set.erase member) set members =
      (set \ members.toFinset, (set ∩ members.toFinset).card) := by
  induction members generalizing set with
  | nil => simp [changeAll]
  | cons member rest ih =>
    by_cases inside : member ∈ set
    · simp [changeAll, ih, inside, Finset.sdiff_insert, Finset.erase_sdiff_comm, card_insert]
    · simp [changeAll, ih, inside, Finset.sdiff_insert]

/-- A command keeps the rows sound and does what it does to finite sets. -/
theorem Sound.step (sound : Sound rows) (clean : Clean command.added.toFinset) :
    Sound (step rows command) ∧
      Reference (sets rows) (execute rows command).1 (sets (step rows command)) command := by
  unfold SetCommands.step
  cases command with
  | sadd name first rest =>
    simp only [execute, insertAll_eq]
    obtain ⟨later, sets_eq⟩ := sound.write_sort
      (Finset.forall_mem_union.mpr ⟨(sound name).2, clean⟩) elements_put
    exact ⟨later, rfl, sets_eq⟩
  | srem name first rest =>
    rw [execute]
    split
    · rename_i missing
      have empty : sets rows name = ∅ := by simp [sets, elements, missing]
      refine ⟨sound, ?_, ?_⟩
      · rw [empty, Finset.empty_inter, Finset.card_empty]
      · rw [empty, Finset.empty_sdiff, ← empty, update_eq_self]
    · simp only [eraseAll_eq]
      obtain ⟨later, sets_eq⟩ := sound.write_sort
        (fun member inside => (sound name).2 member (Finset.sdiff_subset inside)) elements_store
      exact ⟨later, rfl, sets_eq⟩
  | spop name =>
    rw [execute]
    split
    · rename_i none_left
      refine ⟨sound, .inl ⟨?_, rfl, rfl⟩⟩
      rw [sets, getLast?_eq_none_iff.mp none_left]
      rfl
    · rename_i popped last
      obtain ⟨front, split⟩ := getLast?_eq_some_iff.mp last
      obtain ⟨nodup, clean⟩ := sound name
      rw [split] at nodup
      have fresh : popped ∉ front := fun inside =>
        (nodup_append.mp nodup).2.2 popped inside popped mem_cons_self rfl
      have erased : (sets rows name).erase popped = front.toFinset := by simp [sets, split, fresh]
      have kept : Clean front.toFinset := fun member inside =>
        clean member (Finset.erase_subset popped _ (erased ▸ inside))
      obtain ⟨later, sets_eq⟩ := sound.write nodup.of_append_left kept (elements_store kept)
      rw [split, dropLast_concat]
      exact ⟨later, .inr ⟨popped, by simp [sets, split], rfl, erased ▸ sets_eq⟩⟩
  | smove source destination member =>
    by_cases inside : member ∈ sets rows source
    · obtain ⟨removed, removed_eq⟩ := sound.write_sort (fun other inside =>
        (sound source).2 other (Finset.erase_subset member _ inside)) elements_store
      simp only [execute, Reference, if_pos inside]
      obtain ⟨later, sets_eq⟩ := removed.write_sort ((Finset.forall_mem_insert ..).mpr
        ⟨(sound source).2 member inside, (removed destination).2⟩) elements_put
      refine ⟨later, trivial, sets_eq.trans ?_⟩
      rw [removed_eq]
      by_cases same : destination = source
      · simp [same, Finset.insert_erase inside, inside]
      · simp [same]
    · simp only [execute, Reference, if_neg inside]
      exact ⟨sound, trivial, trivial⟩
  | smembers name => exact ⟨sound, ⟨_, (sound name).1, rfl, rfl⟩, rfl⟩
  | sismember _ _ => exact ⟨sound, rfl, rfl⟩
  | scard name =>
    refine ⟨sound, ?_, rfl⟩
    rw [sets, toFinset_card_of_nodup (sound name).1]
    rfl

/-- While no added member contains a zero byte, the commands reply as they do on finite sets, which
are empty at first, and the rows go on to stand for these sets. -/
theorem set_commands_refine (commands : List Command) (rows : Rows)
    (missing : ∀ name, rows.get (setBlobKey name) = none)
    (clean : ∀ command ∈ commands, Clean command.added.toFinset) :
    sets rows = (fun _ => ∅) ∧
      Meets step (fun rows command => Reference (sets rows) (execute rows command).1
        (sets (step rows command)) command) rows commands := by
  have empty : ∀ name, elements rows name = [] := by simp [elements, missing]
  have sound : Sound rows := fun name => by simp [sets, empty, Clean]
  refine ⟨funext fun name => by simp [sets, empty], ?_⟩
  clear missing empty
  induction commands generalizing rows with
  | nil => trivial
  | cons command _ ih =>
    obtain ⟨later, reference⟩ := sound.step (clean command mem_cons_self)
    exact ⟨reference, ih _ (fun other inside => clean other (mem_cons_of_mem _ inside)) later⟩

/-- Two members are counted as two. -/
theorem set_commands_refine_scard :
    (execute (step [] (.sadd [115] [97] [[98]])) (.scard [115])).1 = .integer 2 := by
  obtain ⟨empty, ⟨_, added⟩, ⟨counted, _⟩, _⟩ := set_commands_refine
    [.sadd [115] [97] [[98]], .scard [115]] [] (fun _ => rfl) (by decide)
  rw [counted, added, empty]
  decide

/-- A member with a zero byte is counted twice, and is not found. -/
theorem zero_byte_splits_member :
    (execute (step [] (.sadd [115] [97, 0, 98] [])) (.scard [115])).1 = .integer 2 ∧
      (execute (step [] (.sadd [115] [97, 0, 98] [])) (.sismember [115] [97, 0, 98])).1 =
        .integer 0 := by
  have row : step [] (.sadd [115] [97, 0, 98] []) = [(setBlobKey [115], [97, 0, 98, 0])] := by
    simp [step, execute, changeAll, sets, elements, Rows.get, Rows.put, Rows.delete, encodeSetBlob]
  rw [row]
  decide

end LightKV.SetCommands
