import LightKV.Basic
import Mathlib.Data.Nat.ModEq

/-!
# Replication backlog

A master keeps the last bytes of its command stream in a ring. A byte's offset in the stream,
taken modulo the ring's size, is its place, so a command longer than the ring overwrites itself.
Offsets are 64-bit numbers. Connections are only marked here; nothing is sent.
-/

namespace LightKV.Backlog

structure SlaveConn where
  fd : Int
  ackOffset : Nat
  pendingOffset : Nat
  sentFullResync : Bool

/-- A master with a backlog of `size` bytes. The identifier is a UUID, never the question mark
with which a slave asks for its first synchronisation. -/
structure ReplMaster (size : Nat) where
  replId : String
  named : replId ≠ "?"
  replOffset : Nat
  slaves : List SlaveConn
  backlog : Vector UInt8 size
  backlogFirstOffset : Nat

/-- A difference of 64-bit numbers. -/
def minus (left right : Nat) : Nat := (left + (2 ^ 64 - right)) % 2 ^ 64

variable {size : Nat}

namespace ReplMaster

/-- The constructor. -/
def create (replId : String) (named : replId ≠ "?") : ReplMaster size :=
  ⟨replId, named, 0, [], .replicate size 0, 0⟩

variable [NeZero size] (master : ReplMaster size)

/-- One round of the loop of `Feed`. -/
def append (byte : UInt8) : ReplMaster size :=
  { master with
    backlog := master.backlog.set (Fin.ofNat size master.replOffset) byte
    replOffset := (master.replOffset + 1) % 2 ^ 64 }

/-- `Feed`, with the offset it returns. -/
def feed (respCmd : Bytes) : Nat × ReplMaster size :=
  let written := respCmd.foldl append master
  (master.replOffset,
    if size < minus written.replOffset written.backlogFirstOffset then
      { written with backlogFirstOffset := minus written.replOffset size }
    else written)

/-- What `HandlePSYNC` notes on the first connection with this descriptor. -/
def mark (slaveFd : Int) (full : Bool) (offset : Nat) : ReplMaster size :=
  { master with
    slaves := master.slaves.modify (master.slaves.findIdx (·.fd = slaveFd)) fun slave =>
      { slave with sentFullResync := full, ackOffset := offset, pendingOffset := offset } }

def handlePSYNC (slaveReplId : String) (slaveOffset slaveFd : Int) : String × ReplMaster size :=
  let full := ("FULLRESYNC " ++ master.replId ++ " " ++ toString master.replOffset,
    master.mark slaveFd true master.replOffset)
  let resume := (slaveOffset % 2 ^ 64).toNat
  if slaveReplId = "?" ∨ slaveReplId ≠ master.replId then full
  else if master.backlogFirstOffset ≤ resume ∧ resume ≤ master.replOffset then
    ("CONTINUE " ++ master.replId, master.mark slaveFd false resume)
  else full

def getBacklogFrom (offset : Nat) : Bytes :=
  if offset < master.backlogFirstOffset ∨ master.replOffset < offset then []
  else (List.range (master.replOffset - offset)).map fun i =>
    master.backlog[Fin.ofNat size (offset + i)]

def canServeFrom (offset : Nat) : Bool :=
  master.backlogFirstOffset ≤ offset ∧ offset ≤ master.replOffset

end ReplMaster

open ReplMaster

variable [NeZero size] {first : Nat} {master : ReplMaster size} {fed : Bytes}

/-! ## The window -/

/-- The ring holds the end of what has been fed. -/
structure Holds (first : Nat) (master : ReplMaster size) (fed : Bytes) : Prop where
  offset : master.replOffset = fed.length
  first : master.backlogFirstOffset = first
  bytes : ∀ place < fed.length, fed.length ≤ place + size →
    fed[place]? = some master.backlog[Fin.ofNat size place]

/-- Offsets that are less than one round apart have places of their own. -/
theorem places_apart {near far : Nat} (before : near < far) (within : far < near + size) :
    Fin.ofNat size far ≠ Fin.ofNat size near := by
  intro same
  have equal : near % size = far % size := (congrArg Fin.val same).symm
  have divides := (Nat.modEq_iff_dvd' before.le).mp equal
  have := Nat.le_of_dvd (by omega) divides
  omega

theorem Holds.append {byte : UInt8} (holds : Holds first master fed)
    (room : fed.length + 1 < 2 ^ 64) : Holds first (master.append byte) (fed ++ [byte]) where
  offset := by simpa [ReplMaster.append, holds.offset] using Nat.mod_eq_of_lt room
  first := holds.first
  bytes place inside recent := by
    rw [List.length_append] at inside recent
    simp only [ReplMaster.append, holds.offset, Fin.getElem_fin]
    obtain earlier | rfl := Nat.lt_succ_iff_lt_or_eq.mp inside
    · have apart := places_apart earlier recent
      rw [List.getElem?_append_left earlier, holds.bytes place earlier (by omega),
        Vector.getElem_set_ne _ _ (Fin.val_ne_of_ne apart), Fin.getElem_fin]
    · simp

theorem Holds.foldl_append {respCmd : Bytes} (holds : Holds first master fed)
    (room : (fed ++ respCmd).length < 2 ^ 64) :
    Holds first (respCmd.foldl ReplMaster.append master) (fed ++ respCmd) := by
  induction respCmd generalizing master fed with
  | nil => simpa using holds
  | cons byte rest inductionHypothesis =>
    rw [List.append_cons] at room ⊢
    have fits : fed.length + 1 < 2 ^ 64 := by
      simp only [List.length_append, List.length_singleton] at room
      omega
    exact inductionHypothesis (holds.append fits) room

theorem minus_eq {left right : Nat} (le : right ≤ left) (small : left < 2 ^ 64) :
    minus left right = left - right := by
  unfold minus
  omega

section

variable (holds : Holds (fed.length - size) master fed)
include holds

theorem Holds.feed {respCmd : Bytes} (room : (fed ++ respCmd).length < 2 ^ 64) :
    Holds ((fed ++ respCmd).length - size) (master.feed respCmd).2 (fed ++ respCmd) := by
  have written := holds.foldl_append room
  have longer : fed.length ≤ (fed ++ respCmd).length := by simp
  unfold ReplMaster.feed
  dsimp only
  rw [written.offset, written.first, minus_eq (by omega) room]
  split
  · exact ⟨rfl, minus_eq (by omega) room, written.bytes⟩
  · exact ⟨written.offset, written.first.trans (by omega), written.bytes⟩

theorem Holds.run {commands : List Bytes} (room : (fed ++ commands.flatten).length < 2 ^ 64) :
    Holds ((fed ++ commands.flatten).length - size)
      (commands.foldl (fun master command => (master.feed command).2) master)
      (fed ++ commands.flatten) := by
  induction commands generalizing master fed with
  | nil => simpa using holds
  | cons command rest inductionHypothesis =>
    rw [List.flatten_cons, ← List.append_assoc] at room ⊢
    have fits : (fed ++ command).length < 2 ^ 64 := by
      rw [List.length_append] at room
      omega
    exact inductionHypothesis (holds.feed fits) room

theorem Holds.getBacklogFrom {offset : Nat}
    (inside : master.backlogFirstOffset ≤ offset ∧ offset ≤ fed.length) :
    master.getBacklogFrom offset = fed.drop offset := by
  have first := holds.first
  have served : ¬ (offset < master.backlogFirstOffset ∨ fed.length < offset) := by omega
  rw [ReplMaster.getBacklogFrom, holds.offset, if_neg served]
  apply List.ext_getElem?
  intro i
  by_cases within : offset + i < fed.length
  · have length : i < fed.length - offset := by omega
    rw [List.getElem?_drop, holds.bytes _ within (by omega), List.getElem?_map,
      List.getElem?_range length, Option.map_some]
  · rw [List.getElem?_eq_none (by simp; omega), List.getElem?_eq_none (by simp; omega)]

end

/-- After any commands whose bytes can be counted, the backlog is the end of the stream: it is
served from exactly the offsets in its window, to a slave that knows the master's identifier. -/
theorem backlog_exact_window (replId : String) (named : replId ≠ "?")
    (commands : List Bytes) (counted : commands.flatten.length < 2 ^ 64) :
    let fed := commands.flatten
    let master : ReplMaster size :=
      commands.foldl (fun master command => (master.feed command).2) (create replId named)
    let InWindow (offset : Nat) := master.backlogFirstOffset ≤ offset ∧ offset ≤ fed.length
    master.backlogFirstOffset = fed.length - size ∧
      (∀ offset, InWindow offset → master.getBacklogFrom offset = fed.drop offset) ∧
      (∀ offset, ¬ InWindow offset → master.getBacklogFrom offset = []) ∧
      (∀ offset, master.canServeFrom offset ↔ InWindow offset) ∧
      ∀ slaveOffset slaveFd,
        (master.handlePSYNC master.replId slaveOffset slaveFd).1 = "CONTINUE " ++ master.replId ↔
          InWindow (slaveOffset % 2 ^ 64).toNat := by
  intro fed master InWindow
  have started : Holds (([] : Bytes).length - size) (create replId named : ReplMaster size) [] :=
    ⟨rfl, (Nat.zero_sub _).symm, fun _ impossible => absurd impossible (Nat.not_lt_zero _)⟩
  have holds : Holds (fed.length - size) master fed := started.run counted
  have offset := holds.offset
  refine ⟨holds.first, fun _ => holds.getBacklogFrom, fun _ outside => ?_, fun _ => ?_,
    fun slaveOffset slaveFd => ?_⟩
  · exact if_pos (by rw [offset]; grind)
  · simp only [canServeFrom, offset, decide_eq_true_eq, InWindow]
  · simp only [handlePSYNC, offset, ne_eq, not_true_eq_false, or_false, master.named, if_false]
    split
    case isTrue inside => exact iff_of_true rfl inside
    case isFalse outside =>
      refine iff_of_false (fun same => ?_) outside
      have := congrArg String.toList same
      simp at this

theorem backlog_exact_window_two :
    ((create "a" (by decide) : ReplMaster 2).feed [1, 2, 3]).2.backlogFirstOffset = 1 :=
  (backlog_exact_window "a" (by decide) [[1, 2, 3]] (by decide)).1

end LightKV.Backlog
