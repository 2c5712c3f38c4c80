import Mathlib.Data.List.Infix
import LightKV.Basic

/-!
# Reading records from bytes

Numbers are stored with a fixed width, the lowest byte first, and byte strings behind their
length. A reader passes over bytes with a state. It changes the state as it goes, and when
the bytes end inside a value it stops there, with the state it has reached.

Two things are said about a reader. It is `Local` when it does not depend on the bytes behind
those that it takes. It `Consumes` an encoding when it takes exactly that encoding, with a
given effect on the state, and stops on every proper beginning of it. Both follow the steps
of the reader, and carry over to the loop that reads records until the bytes end.
-/

namespace LightKV

open List

/-! ## Fixed-width numbers -/

/-- A number as the given count of bytes, the lowest first. -/
def encodeFixed : Nat → Nat → Bytes
  | 0, _ => []
  | width + 1, number => UInt8.ofNat number :: encodeFixed width (number / 256)

/-- The number a little-endian byte string stands for. -/
def decodeFixed : Bytes → Nat
  | [] => 0
  | byte :: bytes => byte.toNat + 256 * decodeFixed bytes

@[simp] theorem length_encodeFixed : (encodeFixed width number).length = width := by
  induction width generalizing number with
  | zero => rfl
  | succ _ ih => simp [encodeFixed, ih]

/-- A number that fits its width is read back. -/
theorem decodeFixed_encodeFixed (width number : Nat) (bounded : number < 256 ^ width) :
    decodeFixed (encodeFixed width number) = number := by
  induction width generalizing number with
  | zero => simp at bounded; simp [encodeFixed, decodeFixed, bounded]
  | succ width ih =>
    have smaller : number / 256 < 256 ^ width := by
      rw [Nat.div_lt_iff_lt_mul (by decide)]
      simpa [pow_succ] using bounded
    have low : (UInt8.ofNat number).toNat = number % 256 := by simp
    simp only [encodeFixed, decodeFixed, ih _ smaller]
    omega

theorem decodeFixed_lt (bytes : Bytes) : decodeFixed bytes < 256 ^ bytes.length := by
  induction bytes with
  | nil => exact Nat.one_pos
  | cons byte bytes ih =>
    have low := byte.toNat_lt
    rw [decodeFixed, length_cons]
    omega

/-- The bytes of a number determine it. -/
theorem encodeFixed_decodeFixed (bytes : Bytes) :
    encodeFixed bytes.length (decodeFixed bytes) = bytes := by
  induction bytes with
  | nil => rfl
  | cons byte bytes ih =>
    have high : (byte.toNat + 256 * decodeFixed bytes) / 256 = decodeFixed bytes := by
      have low := byte.toNat_lt
      omega
    simp [encodeFixed, decodeFixed, high, ih]

/-- A byte string behind its length. -/
def encodeBytes (bytes : Bytes) : Bytes :=
  encodeFixed 4 bytes.length ++ bytes

namespace ByteReader

universe u v

variable {σ : Type u} {ρ : Type v}

/-! ## Steps of a reader -/

/-- Read a number and go on, or stop when there are too few bytes. -/
def readFixed (width : Nat) (state : σ) (bytes : Bytes) (next : Nat → Bytes → σ × Option Bytes) :
    σ × Option Bytes :=
  if bytes.length < width then (state, none)
  else next (decodeFixed (bytes.take width)) (bytes.drop width)

/-- Read a byte string behind its length and go on. -/
def readBytes (state : σ) (bytes : Bytes) (next : Bytes → Bytes → σ × Option Bytes) :
    σ × Option Bytes :=
  readFixed 4 state bytes fun length bytes =>
    if bytes.length < length then (state, none)
    else next (bytes.take length) (bytes.drop length)

/-- One reader behind another. -/
def andThen (first second : σ → Bytes → σ × Option Bytes) (state : σ) (bytes : Bytes) :
    σ × Option Bytes :=
  match first state bytes with
  | (state, none) => (state, none)
  | (state, some rest) => second state rest

/-- Read records until the bytes end; false if they end inside one. Every record has a byte,
so that the number of bytes is fuel enough. -/
def readLoop (read : σ → Bytes → σ × Option Bytes) : Nat → σ → Bytes → Bool × σ
  | 0, state, bytes => (bytes.isEmpty, state)
  | fuel + 1, state, bytes =>
      if bytes.isEmpty then (true, state)
      else
        match read state bytes with
        | (state, none) => (false, state)
        | (state, some rest) => readLoop read fuel state rest

/-- Read all records. -/
def readAll (read : σ → Bytes → σ × Option Bytes) (state : σ) (bytes : Bytes) : Bool × σ :=
  readLoop read bytes.length state bytes

/-! ## Readers that look at what they take -/

/-- What the reader does with some bytes does not depend on the bytes behind them. -/
def Local (read : σ → Bytes → σ × Option Bytes) : Prop :=
  ∀ state bytes later rest, read state bytes = (later, some rest) →
    rest.length ≤ bytes.length ∧
      ∀ more, read state (bytes ++ more) = (later, some (rest ++ more))

theorem local_done {effect : σ → σ} : Local fun state bytes => (effect state, some bytes) := by
  rintro state bytes _ _ ⟨⟩
  exact ⟨le_refl _, fun _ => rfl⟩

theorem local_stopped {effect : σ → σ} : Local fun state _ => (effect state, none) := by
  rintro state bytes _ _ ⟨⟩

/-- A reader that changes the state first. -/
theorem Local.comp {read : σ → Bytes → σ × Option Bytes} (step : Local read) (change : σ → σ) :
    Local fun state bytes => read (change state) bytes := fun state => step (change state)

/-- Two such readers, one behind the other. -/
theorem Local.andThen {first second : σ → Bytes → σ × Option Bytes} (front : Local first)
    (back : Local second) : Local (andThen first second) := by
  intro state bytes later rest read
  unfold ByteReader.andThen at read ⊢
  cases begun : first state bytes with
  | mk middle left =>
    rw [begun] at read
    cases left with
    | none => cases read
    | some left =>
      obtain ⟨fewer, extended⟩ := front state bytes middle left begun
      obtain ⟨shorter, further⟩ := back middle left later rest read
      refine ⟨le_trans shorter fewer, fun more => ?_⟩
      rw [extended more]
      exact further more

theorem local_take (width : Nat) {next : Bytes → σ → Bytes → σ × Option Bytes}
    (steps : ∀ value, Local (next value)) :
    Local fun state bytes => if bytes.length < width then (state, none)
      else next (bytes.take width) state (bytes.drop width) := by
  intro state bytes later rest read
  dsimp only at read ⊢
  split at read
  · cases read
  rename_i enough
  obtain ⟨fewer, extended⟩ := steps _ state _ later rest read
  rw [length_drop] at fewer
  refine ⟨le_trans fewer (Nat.sub_le _ _), fun more => ?_⟩
  have within : width ≤ bytes.length := Nat.le_of_not_lt enough
  rw [if_neg (by rw [length_append]; omega), take_append_of_le_length within,
    drop_append_of_le_length within]
  exact extended more

/-- A fixed-width number is taken from the front. -/
theorem local_readFixed {next : Nat → σ → Bytes → σ × Option Bytes}
    (steps : ∀ value, Local (next value)) :
    Local fun state bytes => readFixed width state bytes fun value rest => next value state rest :=
  local_take width fun value => steps (decodeFixed value)

/-- A number that is kept in the state. -/
theorem local_storeFixed {next : σ → Bytes → σ × Option Bytes} (width : Nat)
    (store : Nat → σ → σ) (steps : Local next) :
    Local fun state bytes => readFixed width state bytes fun value => next (store value state) :=
  local_readFixed fun value => steps.comp (store value)

/-- A length and so many bytes are taken from the front. -/
theorem local_readBytes {next : Bytes → σ → Bytes → σ × Option Bytes}
    (steps : ∀ value, Local (next value)) :
    Local fun state bytes => readBytes state bytes fun value rest => next value state rest :=
  local_readFixed fun length => local_take length steps

/-! ## Encodings -/

/-- The reader takes the encoding with the given effect, and stops on every proper beginning
of it. -/
structure Consumes (read : σ → Bytes → σ × Option Bytes) (encoding : Bytes) (effect : σ → σ) :
    Prop where
  whole : ∀ state rest, read state (encoding ++ rest) = (effect state, some rest)
  torn : ∀ state part, part <+: encoding → part ≠ encoding → (read state part).2 = none

theorem consumes_done (effect : σ → σ) :
    Consumes (fun state bytes => (effect state, some bytes)) [] effect where
  whole _ _ := rfl
  torn _ _ beginning different := absurd (prefix_nil.mp beginning) different

theorem Consumes.comp {read : σ → Bytes → σ × Option Bytes} {encoding : Bytes} {effect : σ → σ}
    (step : Consumes read encoding effect) :
    Consumes (fun state bytes => read (change state) bytes) encoding (effect ∘ change) where
  whole state := step.whole (change state)
  torn state := step.torn (change state)

/-- A proper beginning of two encodings ends in the first one, or behind it in the second. -/
theorem proper_prefix_append (beginning : part <+: front ++ back)
    (different : part ≠ front ++ back) :
    part.length < front.length ∨ ∃ rest, part = front ++ rest ∧ rest <+: back ∧ rest ≠ back := by
  rcases lt_or_ge part.length front.length with short | long
  · exact .inl short
  · obtain ⟨rest, rfl⟩ := prefix_of_prefix_length_le (prefix_append front back) beginning long
    exact .inr ⟨rest, rfl, (prefix_append_right_inj front).mp beginning,
      fun same => different (same ▸ rfl)⟩

theorem readFixed_encodeFixed {next : Nat → Bytes → σ × Option Bytes}
    (bounded : value < 256 ^ width) :
    readFixed width state (encodeFixed width value ++ rest) next = next value rest := by
  have long : ¬ (encodeFixed width value ++ rest).length < width := by simp
  rw [readFixed, if_neg long, take_left' length_encodeFixed,
    drop_left' length_encodeFixed, decodeFixed_encodeFixed width value bounded]

theorem consumes_readFixed {width value : Nat} {next : Nat → σ → Bytes → σ × Option Bytes}
    {encoding : Bytes} {effect : σ → σ} (bounded : value < 256 ^ width)
    (steps : Consumes (next value) encoding effect) :
    Consumes
      (fun state bytes => readFixed width state bytes fun value rest => next value state rest)
      (encodeFixed width value ++ encoding) effect where
  whole state rest := by
    rw [append_assoc, readFixed_encodeFixed bounded]
    exact steps.whole state rest
  torn state part beginning different := by
    rcases proper_prefix_append beginning different with short | ⟨rest, rfl, part_of, other⟩
    · rw [length_encodeFixed] at short
      rw [readFixed, if_pos short]
    · rw [readFixed_encodeFixed bounded]
      exact steps.torn state rest part_of other

theorem consumes_storeFixed {next : σ → Bytes → σ × Option Bytes} {effect : σ → σ}
    (width : Nat) (store : Nat → σ → σ) (bounded : value < 256 ^ width)
    (steps : Consumes next encoding effect) :
    Consumes (fun state bytes => readFixed width state bytes fun value => next (store value state))
      (encodeFixed width value ++ encoding) (effect ∘ store value) :=
  consumes_readFixed bounded steps.comp

/-- A length-prefixed string in front of an encoding. -/
theorem consumes_readBytes {next : Bytes → σ → Bytes → σ × Option Bytes} {effect : σ → σ}
    (bounded : value.length < 2 ^ 32) (steps : Consumes (next value) encoding effect) :
    Consumes (fun state bytes => readBytes state bytes fun value rest => next value state rest)
      (encodeBytes value ++ encoding) effect := by
  rw [encodeBytes, append_assoc]
  refine @consumes_readFixed σ 4 _ (fun length state bytes =>
    if bytes.length < length then (state, none)
    else next (bytes.take length) state (bytes.drop length)) _ _ (by omega) ⟨?_, ?_⟩
  · intro state rest
    rw [if_neg (by simp), append_assoc, take_left, drop_left]
    exact steps.whole state rest
  intro state part beginning different
  rcases proper_prefix_append beginning different with short | ⟨rest, rfl, part_of, other⟩
  · rw [if_pos short]
  · rw [if_neg (by simp), take_left, drop_left]
    exact steps.torn state rest part_of other

/-! ## The loop -/

section Loop

variable {read : σ → Bytes → σ × Option Bytes}

/-- Every record has a byte. -/
def Progresses (read : σ → Bytes → σ × Option Bytes) : Prop :=
  ∀ state bytes later rest, read state bytes = (later, some rest) → rest.length < bytes.length

/-- Fuel for every byte is enough. -/
theorem readLoop_of_le (progresses : Progresses read) (enough : bytes.length ≤ fuel)
    (also : bytes.length ≤ other) :
    readLoop read fuel state bytes = readLoop read other state bytes := by
  induction fuel generalizing other state bytes with
  | zero =>
    rw [length_eq_zero_iff.mp (Nat.le_zero.mp enough)]
    cases other <;> rfl
  | succ fuel ih =>
    cases bytes with
    | nil => cases other <;> rfl
    | cons byte bytes =>
      obtain ⟨other, rfl⟩ := Nat.exists_eq_add_one_of_ne_zero (Nat.ne_zero_of_lt also)
      simp only [readLoop]
      cases outcome : read state (byte :: bytes) with
      | mk _ left =>
        cases left with
        | none => rfl
        | some _ =>
          have shorter := progresses _ _ _ _ outcome
          exact ih (by omega) (by omega)

theorem readAll_nil : readAll read state [] = (true, state) := rfl

/-- The loop goes on behind a record. -/
theorem readAll_of_read (progresses : Progresses read)
    (outcome : read state bytes = (later, some rest)) :
    readAll read state bytes = readAll read later rest := by
  have shorter := progresses _ _ _ _ outcome
  cases bytes with
  | nil => simp at shorter
  | cons _ _ =>
    rw [readAll, length_cons, readLoop]
    simp only [outcome]
    exact readLoop_of_le progresses (by simpa using Nat.le_of_lt_succ shorter) (le_refl _)

/-- The loop stops at a record that cannot be read. -/
theorem readAll_of_stop (filled : bytes ≠ []) (stopped : (read state bytes).2 = none) :
    readAll read state bytes = (false, (read state bytes).1) := by
  obtain ⟨byte, rest, rfl⟩ := exists_cons_of_ne_nil filled
  rw [readAll, length_cons, readLoop]
  simp only [isEmpty_cons, Bool.false_eq_true, if_false]
  generalize read state (byte :: rest) = outcome at stopped ⊢
  obtain ⟨_, left⟩ := outcome
  rw [show left = none from stopped]

/-- Bytes behind some that were read to their end are read from where those led. -/
theorem readAll_append (step : Local read) (progresses : Progresses read)
    (finished : readAll read state bytes = (true, later)) (more : Bytes) :
    readAll read state (bytes ++ more) = readAll read later more := by
  induction size : bytes.length using Nat.strongRecOn generalizing state bytes with
  | ind _ ih =>
    cases bytes with
    | nil =>
      obtain rfl := (Prod.mk.inj finished).2
      rfl
    | cons byte bytes =>
      cases outcome : read state (byte :: bytes) with
      | mk _ left =>
        cases left with
        | none =>
          rw [readAll_of_stop (cons_ne_nil _ _) (by rw [outcome])] at finished
          cases finished
        | some rest =>
          rw [readAll_of_read progresses outcome] at finished
          rw [readAll_of_read progresses ((step _ _ _ _ outcome).2 more)]
          exact ih rest.length (size ▸ progresses _ _ _ _ outcome) finished rfl

section

variable {encode : ρ → Bytes} {apply : σ → ρ → σ} {records : List ρ} (progresses : Progresses read)
  (consumes : ∀ record ∈ records, Consumes read (encode record) fun state => apply state record)
include progresses consumes

/-- Records one behind another are applied one after another. -/
theorem readAll_records (state : σ) (rest : Bytes) :
    readAll read state (records.flatMap encode ++ rest) =
      readAll read (records.foldl apply state) rest := by
  induction records generalizing state with
  | nil => rfl
  | cons record _ ih =>
    rw [flatMap_cons, append_assoc,
      readAll_of_read progresses ((consumes record mem_cons_self).whole state _),
      ih fun other member => consumes other (mem_cons_of_mem _ member)]
    rfl

/-- Bytes that end inside a record are refused. -/
theorem readAll_torn
    {last : ρ} {effect : σ → σ} (consumes_last : Consumes read (encode last) effect)
    {part : Bytes} (beginning : part <+: encode last) (different : part ≠ encode last)
    (filled : part ≠ []) (state : σ) :
    (readAll read state (records.flatMap encode ++ part)).1 = false := by
  rw [readAll_records progresses consumes,
    readAll_of_stop filled (consumes_last.torn _ part beginning different)]

end

end Loop

end ByteReader

end LightKV
