import LightKV.Background
import Mathlib.Data.DFinsupp.WellFounded

/-!
# Rounds come to an end

`PickCompaction` asks for a round as long as level 0 has as many tables as its trigger, or a
deeper level is larger than its target. A round may write any number of tables of any size, so
neither the number nor the size of all tables gets smaller. But it takes a table out of its level
and leaves the levels in front of it alone: read from level 0 on, the numbers of tables decrease
lexicographically.
-/

namespace LightKV

open Runs List Function Database

/-- The round for the level that was picked. -/
def RoundKind.ofLevel (level : Nat) : RoundKind :=
  if level = 0 then .oldest else .front level

/-- A round takes a table out of its level. -/
theorem Attached.length_detached_lt {db : Database} {round : Round} (attached : Attached db round) :
    (round.detached db.levels round.level).length < (db.levels round.level).length := by
  obtain ⟨first, picked⟩ := exists_mem_of_ne_nil _ attached.filled
  unfold Round.detached
  cases kind : round.kind with
  | oldest =>
    obtain ⟨rest, front⟩ := attached.front
    have zero : round.level = 0 := by rw [Round.level, kind]; rfl
    have some_picked := length_pos_of_mem picked
    rw [zero] at front ⊢
    simp [front]
    omega
  | front _ =>
    dsimp only
    rw [detach_apply]
    refine length_filter_lt_length_iff_exists.mpr ⟨first, attached.picked_subset first picked, ?_⟩
    simp only [decide_eq_true_eq, not_forall]
    refine ⟨⟨round.level, first⟩, ?_, rfl, fun apart => apart rfl⟩
    exact mem_append_left _ (mem_map_of_mem picked)

/-- A round leaves the levels in front of its own alone. -/
theorem Round.detached_of_lt {round : Round} {level : Nat} (before : level < round.level)
    {levels : Nat → List SSTable} : round.detached levels level = levels level := by
  unfold Round.detached
  cases kind : round.kind with
  | oldest => simp [Round.level, kind, RoundKind.level] at before
  | front _ =>
    dsimp only
    rw [detach_apply]
    refine filter_eq_self.mpr ?_
    intro table _
    simp only [decide_eq_true_eq]
    intro input member here
    rcases mem_append.mp member with picked | overlapping
    · obtain ⟨_, _, rfl⟩ := mem_map.mp picked
      exact absurd here (ne_of_gt before)
    · obtain ⟨_, _, rfl⟩ := mem_map.mp overlapping
      exact absurd here (ne_of_gt (Nat.lt_succ_of_lt before))

namespace Database

/-- `EffectiveMaxLevel`, of the option `max_level`. -/
def effectiveMaxLevel (maxLevel : Nat) : Nat :=
  max 2 (min maxLevel numLevels)

/-- The loop of `PickCompaction` over the levels behind level 0: how many of them are left, the
level, and the target of the level in front of it. -/
def pickDeeper (db : Database) : Nat → Nat → Nat → Option Nat
  | 0, _, _ => none
  | left + 1, level, cumulative =>
      let target := cumulative * db.options.levelMultiplier % 2 ^ 64
      if target < ((db.levels level).map SSTable.fileSize).sum % 2 ^ 64 then some level
      else db.pickDeeper left (level + 1) target

/-- The level that `PickCompaction` returns, if there is one. Its score is then at least one, so
that `needs_compaction` holds. -/
def pickCompaction (maxLevel : Nat) (db : Database) : Option Nat :=
  if db.options.l0FileNumTrigger ≤ (db.levels 0).length then some 0
  else
    db.pickDeeper (effectiveMaxLevel maxLevel - 2) 1
      (db.options.memtableSize * db.options.levelMultiplier % 2 ^ 64)

/-- `BackgroundCompaction` for a merge that returns OK, whatever it wrote. -/
def backgroundCompaction (maxLevel : Nat) (db : Database) (merged : CompactionResult) : Database :=
  match db.pickCompaction maxLevel with
  | none => db
  | some level =>
      match db.capture (.ofLevel level) with
      | none => db
      | some round => (db.withOutputs merged).installRound round merged.added

/-- The merge of the round itself is one of them. -/
theorem backgroundCompaction_mergeRound {db : Database} {round : Round}
    (picked : db.pickCompaction maxLevel = some level)
    (captured : db.capture (.ofLevel level) = some round)
    (merged : (db.mergeRound round).status.isOk = true) :
    db.backgroundCompaction maxLevel (db.mergeRound round) =
      (db.wholeRound (.ofLevel level)).2 := by
  simp [backgroundCompaction, wholeRound, picked, captured, merged]

theorem pickDeeper_spec {db : Database} (picked : db.pickDeeper left level cumulative = some deep) :
    level ≤ deep ∧ deep < level + left ∧ db.levels deep ≠ [] := by
  induction left generalizing level cumulative with
  | zero => cases picked
  | succ _ ih =>
    rw [pickDeeper] at picked
    split at picked
    · rename_i large
      obtain rfl := Option.some.inj picked
      refine ⟨le_refl _, by omega, ?_⟩
      intro empty
      simp [empty] at large
    · obtain ⟨above, below, filled⟩ := ih picked
      exact ⟨by omega, by omega, filled⟩

/-- A level that is picked has a table and a level behind it. -/
theorem pickCompaction_spec {db : Database} (trigger : 1 ≤ db.options.l0FileNumTrigger)
    (picked : db.pickCompaction maxLevel = some level) :
    level + 1 < numLevels ∧ db.levels level ≠ [] := by
  unfold pickCompaction effectiveMaxLevel at picked
  split at picked
  · rename_i reached
    obtain rfl := Option.some.inj picked
    exact ⟨by decide, ne_nil_of_length_pos (lt_of_lt_of_le trigger reached)⟩
  · obtain ⟨_, below, filled⟩ := pickDeeper_spec picked
    refine ⟨?_, filled⟩
    omega

theorem capture_ne_none {db : Database} (inner : level + 1 < numLevels)
    (filled : db.levels level ≠ []) :
    db.capture (.ofLevel level) ≠ none := by
  by_cases zero : level = 0
  · subst zero
    simp [capture, RoundKind.ofLevel, filled]
  · cases files : db.levels level with
    | nil => exact absurd files filled
    | cons _ _ => simp [capture, RoundKind.ofLevel, zero, files, not_le.mpr inner]

/-- The numbers of tables, level 0 first. -/
def tableCounts (db : Database) : Lex (Fin numLevels → Nat) :=
  toLex fun level => (db.levels level).length

/-- The step lemma: a round makes the numbers of tables smaller. -/
theorem tableCounts_backgroundCompaction {db : Database} (trigger : 1 ≤ db.options.l0FileNumTrigger)
    (picked : db.pickCompaction maxLevel = some level) :
    (db.backgroundCompaction maxLevel merged).tableCounts < db.tableCounts := by
  obtain ⟨inner, filled⟩ := pickCompaction_spec trigger picked
  obtain ⟨round, captured⟩ := Option.ne_none_iff_exists'.mp (capture_ne_none inner filled)
  obtain ⟨kind, attached⟩ := attached_capture captured
  obtain rfl : level = round.level := by
    rw [Round.level, kind, RoundKind.ofLevel]
    split
    · assumption
    · rfl
  rw [backgroundCompaction, picked]
  dsimp only
  rw [captured]
  have levels_eq : ∀ level ≤ round.level,
      ((db.withOutputs merged).installRound round merged.added).levels level =
        round.detached db.levels level := by
    intro level reached
    rw [levels_installRound, update_of_ne (by omega)]
    rfl
  refine ⟨⟨round.level, Nat.lt_of_succ_lt inner⟩, ?_, ?_⟩
  · intro earlier before
    exact congrArg length ((levels_eq earlier before.le).trans (Round.detached_of_lt before))
  · exact (congrArg length (levels_eq _ (le_refl _))).trans_lt attached.length_detached_lt

/-- Background compaction comes to rest: whatever the rounds write, after finitely many of them
`PickCompaction` asks for no further one. -/
theorem compaction_quiesces (maxLevel : Nat) (db : Database)
    (trigger : 1 ≤ db.options.l0FileNumTrigger) (merges : Nat → CompactionResult) :
    ∃ rounds, (run (backgroundCompaction maxLevel) db
      ((range rounds).map merges)).pickCompaction maxLevel = none := by
  induction counts : db.tableCounts using WellFoundedLT.induction generalizing db merges with
  | ind counts ih =>
    cases picked : db.pickCompaction maxLevel with
    | none => exact ⟨0, picked⟩
    | some level =>
      have options_eq : (db.backgroundCompaction maxLevel (merges 0)).options = db.options := by
        unfold backgroundCompaction
        split
        · rfl
        · split <;> rfl
      obtain ⟨rounds, rest⟩ := ih _
        (counts ▸ tableCounts_backgroundCompaction trigger picked) _
        (options_eq ▸ trigger) (fun round => merges (round + 1)) rfl
      refine ⟨rounds + 1, ?_⟩
      rw [range_succ_eq_map, map_cons, map_map]
      exact rest

/-- Four tables on level 0 ask for a round. -/
def fourFlushes : Database :=
  { fresh {} with
    levels := update (fun _ => []) 0 ((range 4).map fun id => ⟨id, [], .new 10, 4096⟩) }

theorem compaction_quiesces_fourFlushes :
    fourFlushes.pickCompaction 7 = some 0 ∧
      ∃ rounds, (run (backgroundCompaction 7) fourFlushes
        ((range rounds).map fun round =>
          ⟨.ok, [⟨round + 4, [], .new 10, 2 ^ 40⟩], [], 0⟩)).pickCompaction 7 = none :=
  ⟨by decide, compaction_quiesces 7 fourFlushes (by decide) _⟩

end Database

end LightKV
