import LightKV.Database

/-!
# What a point read finds

`Get` asks the active memtable, then the immutable one, then the tables; the first
memtable that has the key decides. Among the tables the highest sequence number wins, and
within one table the newest version.

The result is stated without the search: `points` are all versions of user keys in
memtables and tables, and a read at a snapshot answers with what the newest of those that
the snapshot sees resolves to. For this a database has to be `ReadableAt` the snapshot. The
conditions that are not about single tables are that a version in a memtable is at least as
new as everything behind it that is seen, that two runs which hold a key at one sequence
number agree on its highest type there, and that versions of one rank read the same. In a
level behind level 0 only one table is asked for a key; so the versions of a key in such a
level must be all seen or all unseen.

`Get` without a snapshot sees every version. A database that can be read there is
`Readable`.
-/

namespace LightKV

open Versions Levels List Option

/-! ## Searching tables -/

/-- `best` is the newest version of the key in its own table, and no table of the list has
a higher sequence number for the key; without `best` no table has the key. Only the
versions that the snapshot sees count. -/
def Leads (snapshot : Nat) (tables : List SSTable) (key : Bytes) : Option Entry → Prop
  | none => ∀ table ∈ tables, ∀ entry ∈ table.entries, entry.key = key → snapshot < entry.seq
  | some best =>
      (∃ table ∈ tables, Newest Entry.key Entry.rank
        {entry | entry ∈ table.entries ∧ entry.seq ≤ snapshot} key best) ∧
        ∀ table ∈ tables, ∀ entry ∈ table.entries, entry.key = key → entry.seq ≤ snapshot →
          entry.seq ≤ best.seq

section Search

variable {key : Bytes} {snapshot : Nat} {tables : List SSTable} {best : Option Entry}

/-- Whether a version leads depends only on which tables there are. -/
theorem Leads.congr (leads : Leads snapshot tables key best)
    (same : ∀ table, table ∈ others ↔ table ∈ tables) : Leads snapshot others key best := by
  cases best with
  | none => exact fun table member => leads table ((same table).mp member)
  | some _ =>
    obtain ⟨⟨table, member, newest⟩, highest⟩ := leads
    exact ⟨⟨table, (same table).mpr member, newest⟩,
      fun other inside => highest other ((same other).mp inside)⟩

/-- Tables whose versions of the key are all matched by a leading version can be added. -/
theorem Leads.append (leads : Leads snapshot tables key best)
    (matched : ∀ table ∈ others, ∀ entry ∈ table.entries, entry.key = key → entry.seq ≤ snapshot →
      ∃ found, best = some found ∧ entry.seq ≤ found.seq) :
    Leads snapshot (tables ++ others) key best := by
  cases best with
  | none =>
    intro table member entry inside same
    rcases mem_append.mp member with old | new
    · exact leads table old entry inside same
    · by_contra seen
      obtain ⟨_, impossible, _⟩ := matched table new entry inside same (Nat.le_of_not_lt seen)
      exact absurd impossible (by simp)
  | some _ =>
    obtain ⟨⟨table, member, newest⟩, highest⟩ := leads
    refine ⟨⟨table, mem_append_left _ member, newest⟩, ?_⟩
    intro other inside entry held same seen
    rcases mem_append.mp inside with old | new
    · exact highest other old entry held same seen
    · obtain ⟨_, found_eq, _⟩ := matched other new entry held same seen
      rwa [some.inj found_eq]

variable {table : SSTable}

theorem get_of_mayMatch (wellFormed : table.WellFormed) (rejected : table.mayMatch key = false) :
    table.get key snapshot = none := by
  by_contra found
  obtain ⟨entry, found⟩ := ne_none_iff_exists'.mp found
  obtain ⟨⟨member, _⟩, same, _⟩ := wellFormed.newest_of_get found
  have present := wellFormed.filtered entry member
  rw [same, rejected] at present
  exact absurd present (by decide)

theorem leads_consider (leads : Leads snapshot tables key best) (wellFormed : table.WellFormed) :
    Leads snapshot (tables ++ [table]) key (consider key snapshot best table) := by
  have result : consider key snapshot best table = better best (table.get key snapshot) := by
    cases known : table.mayMatch key with
    | true => rw [consider, if_pos known]
    | false => rw [consider, if_neg (by simp [known]), get_of_mayMatch wellFormed known, better]
  rw [result]
  cases found : table.get key snapshot with
  | none =>
    -- The table has no version of the key that is seen.
    have absent := wellFormed.absent_of_get found
    apply leads.append
    intro _ member entry inside same seen
    rw [mem_singleton.mp member] at inside
    exact absurd (absent entry inside same) (Nat.not_lt_of_le seen)
  | some entry =>
    have newest := wellFormed.newest_of_get found
    have own : ∀ other ∈ table.entries, other.key = key → other.seq ≤ snapshot →
        other.seq ≤ entry.seq :=
      fun other inside same seen => Entry.seq_le_of_rank_le (newest.2.2 other ⟨inside, seen⟩ same)
    cases best with
    | none =>
      refine ⟨⟨table, by simp, newest⟩, ?_⟩
      intro other member version inside same seen
      rcases mem_append.mp member with old | new
      · exact absurd (leads other old version inside same) (Nat.not_lt_of_le seen)
      · rw [mem_singleton.mp new] at inside
        exact own version inside same seen
    | some best =>
      unfold better
      dsimp only
      split
      · rename_i older
        apply leads.append
        intro _ member version inside same seen
        rw [mem_singleton.mp member] at inside
        exact ⟨best, rfl, le_trans (own version inside same seen) older⟩
      refine ⟨⟨table, by simp, newest⟩, ?_⟩
      intro other member version inside same seen
      rcases mem_append.mp member with old | new
      · have bound := leads.2 other old version inside same seen
        omega
      · rw [mem_singleton.mp new] at inside
        exact own version inside same seen

theorem SSTable.mem_of_get {table : SSTable}
    (found : table.get key snapshot = some entry) : entry ∈ table.entries ∧ entry.key = key := by
  unfold SSTable.get at found
  split at found
  · cases found
  · have inside := mem_of_find?_eq_some found
    exact ⟨(dropWhile_sublist _).mem ((takeWhile_sublist _).mem inside),
      by simpa using mem_takeWhile_imp inside⟩

/-- A version with the highest number stays the best one. -/
theorem foldl_consider_of_highest {best : Entry}
    (low : ∀ table ∈ tables, ∀ entry ∈ table.entries, entry.seq ≤ best.seq) :
    tables.foldl (consider key snapshot) (some best) = some best := by
  induction tables with
  | nil => rfl
  | cons table _ ih =>
    obtain ⟨first, rest⟩ := forall_mem_cons.mp low
    have kept : consider key snapshot (some best) table = some best := by
      unfold consider
      split
      · cases found : table.get key snapshot with
        | none => rfl
        | some entry => exact if_pos (first entry (SSTable.mem_of_get found).1)
      · rfl
    rw [foldl_cons, kept, ih rest]

/-- The loop over level 0 ends early only where no other table would change the result. -/
theorem searchLevel0_eq_foldl
    (low : ∀ table ∈ tables, ∀ entry ∈ table.entries, entry.seq ≤ lastSeq) :
    searchLevel0 key snapshot lastSeq tables best = tables.foldl (consider key snapshot) best := by
  induction tables generalizing best with
  | nil => rfl
  | cons table _ ih =>
    have rest := (forall_mem_cons.mp low).2
    unfold searchLevel0
    rw [foldl_cons]
    dsimp only
    split
    · rename_i ended
      obtain ⟨entry, chosen, highest⟩ := (Option.any_eq_true ..).mp ended
      rw [decide_eq_true_eq] at highest
      rw [chosen, foldl_consider_of_highest (highest ▸ rest)]
    · exact ih rest

theorem leads_searchLevel0 (leads : Leads snapshot tables key best)
    (wellFormed : ∀ table ∈ files, table.WellFormed)
    (low : ∀ table ∈ files, ∀ entry ∈ table.entries, entry.seq ≤ lastSeq) :
    Leads snapshot (tables ++ files) key (searchLevel0 key snapshot lastSeq files best) := by
  rw [searchLevel0_eq_foldl low]
  clear low
  induction files generalizing tables best with
  | nil => simpa using leads
  | cons table _ ih =>
    obtain ⟨first, rest⟩ := forall_mem_cons.mp wellFormed
    simpa using ih (leads_consider leads first) rest

/-- The versions of a key are all seen at a snapshot, or none is. -/
def Unsplit (snapshot : Nat) (key : Bytes) (entries : List Entry) : Prop :=
  ∀ first ∈ entries, ∀ second ∈ entries, first.key = key → second.key = key →
    first.seq ≤ snapshot → second.seq ≤ snapshot
  deriving Decidable

/-- What is not split is not split in fewer versions. -/
theorem Unsplit.subset (unsplit : Unsplit snapshot key entries) (subset : fewer ⊆ entries) :
    Unsplit snapshot key fewer :=
  fun first in_first second in_second => unsplit first (subset in_first) second (subset in_second)

/-- The search of a level adds all of its tables. -/
theorem leads_searchLevel (leads : Leads snapshot tables key best)
    (level : Level Entry.key Entry.rank SSTable.entries files)
    (wellFormed : ∀ table ∈ files, table.WellFormed)
    (unsplit : Unsplit snapshot key (versionsOf files)) :
    Leads snapshot (tables ++ files) key (searchLevel key snapshot files best) := by
  unfold searchLevel
  split
  · rename_i past
    have absent := level.absent_of_past_end SSTable.bounds past
    apply leads.append
    intro table member entry inside same _
    exact absurd same (absent table member entry inside)
  rename_i found located
  obtain ⟨member, matched⟩ := level.newest_in_found SSTable.bounds located
  split
  · rename_i behind
    apply leads.append
    intro table inside entry held same _
    exact absurd (matched table inside entry held same).1 (not_le_of_gt behind)
  have considered := leads_consider leads (wellFormed found member)
  have matched_all : ∀ table ∈ files, ∀ entry ∈ table.entries, entry.key = key →
      entry.seq ≤ snapshot →
      ∃ version, consider key snapshot best found = some version ∧
        entry.seq ≤ version.seq := by
    intro table inside entry held same seen
    obtain ⟨newer, newer_in, newer_same, at_least⟩ := (matched table inside entry held same).2
    -- The table that was found has the newest version of the level, and it is seen too.
    have newer_seen : newer.seq ≤ snapshot :=
      unsplit entry (mem_versionsOf.mpr ⟨table, inside, held⟩) newer
        (mem_versionsOf.mpr ⟨found, member, newer_in⟩) same newer_same seen
    cases chosen : consider key snapshot best found with
    | none =>
      rw [chosen] at considered
      exact absurd (considered found (by simp) newer newer_in newer_same)
        (Nat.not_lt_of_le newer_seen)
    | some version =>
      rw [chosen] at considered
      refine ⟨version, rfl, le_trans (Entry.seq_le_of_rank_le at_least) ?_⟩
      exact considered.2 found (by simp) newer newer_in newer_same newer_seen
  apply (considered.append matched_all).congr
  intro _
  simp only [mem_append, mem_singleton]
  constructor
  · rintro (old | new)
    · exact .inl (.inl old)
    · exact .inr new
  · rintro ((old | rfl) | new)
    · exact .inl old
    · exact .inr member
    · exact .inr new

end Search

/-! ## What a search finds -/

theorem consider_cases (key : Bytes) (snapshot : Nat) (best : Option Entry) (table : SSTable) :
    consider key snapshot best table = best ∨
      consider key snapshot best table = table.get key snapshot := by
  unfold consider
  split
  · cases table.get key snapshot with
    | none => exact .inl rfl
    | some _ =>
      cases best with
      | none => exact .inr rfl
      | some _ =>
        unfold better
        dsimp only
        split
        · exact .inl rfl
        · exact .inr rfl
  · exact .inl rfl

/-- A version found is one of the key, in a table that was searched. -/
def FoundIn (tables : List SSTable) (key : Bytes) (best : Option Entry) : Prop :=
  ∀ entry, best = some entry → (∃ table ∈ tables, entry ∈ table.entries) ∧ entry.key = key

theorem FoundIn.consider {tables : List SSTable}
    (found : FoundIn tables key best) (member : table ∈ tables)
    (snapshot : Nat) : FoundIn tables key (consider key snapshot best table) := by
  rcases consider_cases key snapshot best table with same | own
  · rw [same]
    exact found
  · intro _ chosen
    obtain ⟨inside, same⟩ := SSTable.mem_of_get (own.symm.trans chosen)
    exact ⟨⟨table, member, inside⟩, same⟩

theorem FoundIn.searchLevel0 (listed : files ⊆ tables) (found : FoundIn tables key best) :
    FoundIn tables key (searchLevel0 key snapshot lastSeq files best) := by
  induction files generalizing best with
  | nil => exact found
  | cons _ _ ih =>
    have next := found.consider (listed mem_cons_self) snapshot
    unfold LightKV.searchLevel0
    dsimp only
    split
    · exact next
    · exact ih (subset_of_cons_subset listed) next

theorem FoundIn.searchLevel (listed : files ⊆ tables) (found : FoundIn tables key best) :
    FoundIn tables key (searchLevel key snapshot files best) := by
  unfold LightKV.searchLevel
  split
  · exact found
  · rename_i located
    split
    · exact found
    · exact found.consider (listed (mem_of_getElem? located)) snapshot

/-- `Get` finds versions of its key, in the tables of the levels. -/
theorem foundIn_searchLevels (levels : Nat → List SSTable) (lastSeq : Nat) (key : Bytes)
    (snapshot : Nat) :
    FoundIn ((range numLevels).flatMap levels) key
      (searchLevels levels lastSeq key snapshot) := by
  have inside : ∀ level < numLevels, levels level ⊆ (range numLevels).flatMap levels :=
    fun level bound _ member => mem_flatMap.mpr ⟨level, mem_range.mpr bound, member⟩
  refine foldlRecOn (motive := FoundIn _ key) _ _ (FoundIn.searchLevel0 ?_ nofun) ?_
  · intro _ member
    exact inside 0 (by decide) (mem_reverse.mp member)
  · intro _ found level member
    have bound := mem_range'_1.mp member
    exact found.searchLevel (inside level (by omega))

namespace Database

variable (db : Database)

/-- The tables of all levels. -/
def tables : List SSTable :=
  (List.range numLevels).flatMap db.levels

theorem mem_tables {db : Database} :
    table ∈ db.tables ↔ ∃ level < numLevels, table ∈ db.levels level := by
  simp [tables]

/-- The runs of versions that a reader may consult. -/
def runs : Set (List Entry) :=
  {run | run = db.mem.nodes ∨ (∃ imm, db.imm = some imm ∧ run = imm.nodes) ∨
    run ∈ runsOf db.tables}

/-- The versions of user keys. -/
def points : Set Entry :=
  {entry | UserKey entry.key ∧ ∃ run ∈ db.runs, entry ∈ run}

/-- The versions of user keys that a snapshot sees. -/
def seen (snapshot : Nat) : Set Entry :=
  {entry | entry ∈ db.points ∧ entry.seq ≤ snapshot}

/-- What a version answers to a reader at a snapshot. -/
def resolveAt (snapshot : Nat) (entry : Entry) : Except Status Bytes :=
  if entry.type = .deletion then .error (.notFound "")
  else db.answerValue entry.key snapshot entry.value entry.seq

/-- What a version answers to a reader at the latest snapshot. -/
def resolve : Entry → Except Status Bytes :=
  db.resolveAt db.lastSeq

/-! ## Memtables -/

variable {key : Bytes}

/-- A memtable answers with the version inserted last among those the snapshot sees. -/
theorem readMem_eq {mem : MemTable}
    (registered : mem.rangeTombstones ⊆ db.rangeTombstones) :
    db.readMem key snapshot mem = (mem.seen key snapshot).map (db.resolveAt snapshot) := by
  unfold readMem MemTable.find
  rw [show _ = mem.seen key snapshot from mem.ordered.lookup_eq_find]
  cases found : mem.seen key snapshot with
  | none => rfl
  | some entry =>
    have same := (MemTable.mem_of_seen found).2.1
    simp only [map_some, resolveAt, answerValue, same]
    by_cases deleted : entry.type = .deletion
    · rw [if_pos deleted, if_pos deleted]
    rw [if_neg deleted, if_neg deleted]
    -- A tombstone of the memtable is registered in the database as well.
    by_cases hidden : covered mem.rangeTombstones key entry.seq snapshot = true
    · rw [if_pos hidden, if_pos (covered_mono registered hidden)]
    · rw [if_neg hidden]

/-- A read at a snapshot number. -/
def readAt (snapshot : Nat) (key : Bytes) : Except Status Bytes :=
  match db.mem.seen key snapshot with
  | some entry => db.resolveAt snapshot entry
  | none =>
      match db.imm.bind fun imm => imm.seen key snapshot with
      | some entry => db.resolveAt snapshot entry
      | none => db.readTables key snapshot

/-- The answers of the memtables come before the answer of the tables. -/
theorem getAt_eq (registered : db.mem.rangeTombstones ⊆ db.rangeTombstones)
    (immRegistered : ∀ imm, db.imm = some imm → imm.rangeTombstones ⊆ db.rangeTombstones) :
    db.getAt snapshotSeq key =
      db.readAt (if 0 < snapshotSeq then snapshotSeq else db.lastSeq) key := by
  unfold getAt readAt
  dsimp only
  generalize (if 0 < snapshotSeq then snapshotSeq else db.lastSeq) = snapshot
  rw [readMem_eq db registered]
  cases db.mem.seen key snapshot with
  | some _ => rfl
  | none =>
    cases rotated : db.imm with
    | none => rfl
    | some imm =>
      simp only [bind_some]
      rw [readMem_eq db (immRegistered imm rotated)]
      cases imm.seen key snapshot <;> rfl

/-- The read at the latest snapshot, where every version is seen. -/
theorem get_eq {db : Database} (older : ∀ entry ∈ db.mem.nodes, entry.seq < db.lastSeq)
    (immOlder : ∀ imm, db.imm = some imm → ∀ entry ∈ imm.nodes, entry.seq < db.lastSeq)
    (registered : db.mem.rangeTombstones ⊆ db.rangeTombstones)
    (immRegistered : ∀ imm, db.imm = some imm → imm.rangeTombstones ⊆ db.rangeTombstones) :
    db.get key =
      match (db.mem.versions key).head? with
      | some entry => db.resolve entry
      | none =>
          match db.imm.bind fun imm => (imm.versions key).head? with
          | some entry => db.resolve entry
          | none => db.readTables key db.lastSeq := by
  unfold get
  rw [db.getAt_eq registered immRegistered]
  simp only [lt_irrefl, if_false, readAt]
  rw [db.mem.seen_eq_head key fun entry member => le_of_lt (older entry member)]
  cases rotated : db.imm with
  | none => rfl
  | some imm =>
    simp only [bind_some]
    rw [imm.seen_eq_head key fun entry member => le_of_lt (immOlder imm rotated entry member)]
    rfl

/-! ## Tables -/

variable {db} {snapshot : Nat}

/-- What a search of the tables relies on, for one key. -/
structure Searchable (db : Database) (snapshot : Nat) (key : Bytes) : Prop where
  older : ∀ table ∈ db.tables, ∀ entry ∈ table.entries, entry.seq < db.lastSeq
  wellFormed : ∀ table ∈ db.tables, table.WellFormed
  level : ∀ level, 1 ≤ level → level < numLevels →
    Level Entry.key Entry.rank SSTable.entries (db.levels level)
  unsplit : ∀ level, 1 ≤ level → level < numLevels →
    Unsplit snapshot key (versionsOf (db.levels level))

/-- Behind level 0 the search goes on over all levels. -/
theorem Searchable.leads_deeper (searchable : Searchable db snapshot key) {best : Option Entry}
    (leads : Leads snapshot (db.levels 0).reverse key best) :
    Leads snapshot db.tables key ((range' 1 (numLevels - 1)).foldl
      (fun best level => searchLevel key snapshot (db.levels level) best) best) := by
  have inside : ∀ level < numLevels, ∀ table ∈ db.levels level, table ∈ db.tables :=
    fun level bound _ member => mem_tables.mpr ⟨level, bound, member⟩
  -- The deeper levels are added one after another.
  have deeper : ∀ (levels : List Nat) (tables : List SSTable) (best : Option Entry),
      (∀ level ∈ levels, 1 ≤ level ∧ level < numLevels) → Leads snapshot tables key best →
      Leads snapshot (tables ++ levels.flatMap db.levels) key
        (levels.foldl (fun best level =>
          searchLevel key snapshot (db.levels level) best) best) := by
    intro levels
    induction levels with
    | nil => simp
    | cons level _ ih =>
      intro _ _ range leads
      obtain ⟨low, high⟩ := range level mem_cons_self
      have next := leads_searchLevel leads (searchable.level level low high)
        (fun table member => searchable.wellFormed table (inside level high table member))
        (searchable.unsplit level low high)
      have rest := ih _ _ (fun other member => range other (mem_cons_of_mem _ member)) next
      simpa using rest
  have all := deeper (range' 1 (numLevels - 1)) _ _ (by
    intro _ member
    have bound := mem_range'_1.mp member
    omega) leads
  apply all.congr
  intro _
  simp only [mem_append, mem_reverse, mem_flatMap, mem_tables, mem_range'_1]
  constructor
  · rintro ⟨level, bound, member⟩
    rcases Nat.eq_zero_or_pos level with rfl | positive
    · exact .inl member
    · exact .inr ⟨level, ⟨positive, by unfold numLevels at bound ⊢; omega⟩, member⟩
  · rintro (member | ⟨level, bound, member⟩)
    · exact ⟨0, by decide, member⟩
    · exact ⟨level, by unfold numLevels at bound ⊢; omega, member⟩

/-- The search over the levels leads over all tables. -/
theorem Searchable.leads (searchable : Searchable db snapshot key) :
    Leads snapshot db.tables key (searchLevels db.levels db.lastSeq key snapshot) := by
  have inside : ∀ table ∈ (db.levels 0).reverse, table ∈ db.tables :=
    fun _ member => mem_tables.mpr ⟨0, by decide, mem_reverse.mp member⟩
  have nothing : Leads snapshot [] key none := by simp [Leads]
  apply searchable.leads_deeper
  exact leads_searchLevel0 nothing
    (fun table member => searchable.wellFormed table (inside table member))
    fun table member entry held =>
      le_of_lt (searchable.older table (inside table member) entry held)

/-- A leading version is the newest one of its key in the tables. -/
theorem newest_of_leads {tables : List SSTable}
    (leads : Leads snapshot tables key (some best)) (closed : TieClosed (runsOf tables)) :
    ∀ table ∈ tables, ∀ entry ∈ table.entries, entry.key = key → entry.seq ≤ snapshot →
      entry.rank ≤ best.rank := by
  obtain ⟨⟨source, member, newest⟩, highest⟩ := leads
  intro table inside entry held same seen
  rcases lt_or_ge best.rank entry.rank with above | bound
  · -- At one sequence number the table of `best` would hold the higher version too.
    have same_seq : entry.seq = best.seq :=
      le_antisymm (highest table inside entry held same seen)
        (Entry.seq_le_of_rank_le (le_of_lt above))
    obtain ⟨other, other_in, other_same, other_rank⟩ :=
      closed source.entries ⟨source, member, rfl⟩ table.entries ⟨table, inside, rfl⟩ best
        newest.1.1 entry held (same.trans newest.2.1.symm) same_seq above
    have other_seen : other.seq ≤ snapshot :=
      le_trans (Entry.seq_le_of_rank_le (le_of_eq other_rank)) seen
    have capped := newest.2.2 other ⟨other_in, other_seen⟩ (other_same.trans newest.2.1)
    omega
  · exact bound

/-- The tables answer with their newest version that the snapshot sees. -/
theorem Searchable.readTables_newest (searchable : Searchable db snapshot key)
    (closed : TieClosed (runsOf db.tables)) :
    (∃ entry, Newest Entry.key Entry.rank
        {entry | (∃ table ∈ db.tables, entry ∈ table.entries) ∧ entry.seq ≤ snapshot} key entry ∧
        db.readTables key snapshot = db.resolveAt snapshot entry) ∨
      (∀ table ∈ db.tables, ∀ entry ∈ table.entries, entry.key = key → snapshot < entry.seq) ∧
        db.readTables key snapshot = .error (.notFound "") := by
  have leads := searchable.leads
  unfold readTables
  cases found : searchLevels db.levels db.lastSeq key snapshot with
  | none =>
    rw [found] at leads
    exact .inr ⟨leads, rfl⟩
  | some best =>
    rw [found] at leads
    have highest := newest_of_leads leads closed
    obtain ⟨⟨source, member, ⟨inside, seen⟩, same, _⟩, _⟩ := leads
    refine .inl ⟨best, ⟨⟨⟨source, member, inside⟩, seen⟩, same, ?_⟩, ?_⟩
    · rintro other ⟨⟨table, present, held⟩, other_seen⟩ other_same
      exact highest table present other held other_same other_seen
    · simp only [resolveAt, same]

/-! ## The answer -/

/-- A version of the key that a memtable finds for a snapshot is the newest one, and versions
of one rank read alike. -/
structure FrontFirst (db : Database) (snapshot : Nat) (key : Bytes) : Prop where
  user : UserKey key
  memFirst : ∀ entry, db.mem.seen key snapshot = some entry →
    Newest Entry.key Entry.rank (db.seen snapshot) key entry
  immFirst : ∀ imm, db.imm = some imm → db.mem.seen key snapshot = none →
    ∀ entry, imm.seen key snapshot = some entry →
      Newest Entry.key Entry.rank (db.seen snapshot) key entry
  coherent : ∀ first ∈ db.seen snapshot, ∀ second ∈ db.seen snapshot, first.key = key →
    second.key = key → first.rank = second.rank → first.type = .value →
      db.vlog.unwrap db.disk.vlogs first.value = db.vlog.unwrap db.disk.vlogs second.value

/-- What a read of a key at a snapshot relies on. -/
structure ReadableAt (db : Database) (snapshot : Nat) (key : Bytes) : Prop
    extends FrontFirst db snapshot key where
  searchable : Searchable db snapshot key
  closed : TieClosed db.runs

variable {key : Bytes}

/-- A read answers with the newest version of the key that the snapshot sees. -/
theorem ReadableAt.readAt_newest (readable : ReadableAt db snapshot key) :
    (∃ entry, Newest Entry.key Entry.rank (db.seen snapshot) key entry ∧
        db.readAt snapshot key = db.resolveAt snapshot entry) ∨
      (∀ entry ∈ db.seen snapshot, entry.key ≠ key) ∧
        db.readAt snapshot key = .error (.notFound "") := by
  unfold readAt
  cases active : db.mem.seen key snapshot with
  | some entry => exact .inl ⟨entry, readable.memFirst entry active, rfl⟩
  | none =>
    cases below : db.imm.bind fun imm => imm.seen key snapshot with
    | some entry =>
      obtain ⟨imm, rotated, top⟩ := bind_eq_some_iff.mp below
      exact .inl ⟨entry, readable.immFirst imm rotated active entry top, rfl⟩
    | none =>
      -- Neither memtable has a version that is seen, so they are all in the tables.
      have only_tables : ∀ entry ∈ db.seen snapshot, entry.key = key →
          ∃ table ∈ db.tables, entry ∈ table.entries := by
        rintro entry ⟨⟨_, _, member, inside⟩, seen⟩ same
        rcases member with rfl | ⟨_, rotated, rfl⟩ | ⟨table, in_tables, rfl⟩
        · exact absurd (MemTable.unseen_iff.mp active entry inside same) (Nat.not_lt_of_le seen)
        · rw [rotated] at below
          exact absurd (MemTable.unseen_iff.mp below entry inside same) (Nat.not_lt_of_le seen)
        · exact ⟨table, in_tables, inside⟩
      have closed : TieClosed (runsOf db.tables) :=
        readable.closed.subset fun _ member => .inr (.inr member)
      rcases readable.searchable.readTables_newest closed with
        ⟨entry, ⟨⟨⟨table, present, inside⟩, seen⟩, same, highest⟩, answer⟩ | ⟨absent, answer⟩
      · refine .inl ⟨entry, ⟨⟨⟨same ▸ readable.user, table.entries,
          .inr (.inr ⟨table, present, rfl⟩), inside⟩, seen⟩, same, ?_⟩, answer⟩
        intro other member other_same
        exact highest other ⟨only_tables other member other_same, member.2⟩ other_same
      · refine .inr ⟨?_, answer⟩
        intro entry member same
        obtain ⟨table, present, inside⟩ := only_tables entry member same
        exact absurd (absent table present entry inside same) (Nat.not_lt_of_le member.2)

/-- Versions of one rank resolve alike if their values read alike. -/
theorem resolveAt_eq_of_rank_eq (same_key : first.key = second.key)
    (same_rank : first.rank = second.rank)
    (reads : first.type = .value → db.vlog.unwrap db.disk.vlogs first.value = db.vlog.unwrap
      db.disk.vlogs second.value) : db.resolveAt snapshot first = db.resolveAt snapshot second := by
  obtain ⟨same_seq, same_type⟩ := Entry.rank_eq_iff.mp same_rank
  unfold resolveAt answerValue
  rw [same_key, same_seq, ← same_type]
  cases kind : first.type with
  | deletion => rw [if_pos rfl, if_pos rfl]
  | value => rw [reads kind]

theorem ReadableAt.readAt_eq_resolveAt (readable : ReadableAt db snapshot key)
    (newest : Newest Entry.key Entry.rank (db.seen snapshot) key entry) :
    db.readAt snapshot key = db.resolveAt snapshot entry := by
  rcases readable.readAt_newest with ⟨other, other_newest, answer⟩ | ⟨absent, _⟩
  · have same_rank := newest.rank_eq other_newest
    rw [answer]
    exact (resolveAt_eq_of_rank_eq (newest.2.1.trans other_newest.2.1.symm) same_rank
      (readable.coherent entry newest.1 other other_newest.1 newest.2.1 other_newest.2.1
        same_rank)).symm
  · exact absurd newest.2.1 (absent entry newest.1)

theorem ReadableAt.readAt_eq_notFound (readable : ReadableAt db snapshot key)
    (absent : ∀ entry ∈ db.seen snapshot, entry.key ≠ key) :
    db.readAt snapshot key = .error (.notFound "") := by
  rcases readable.readAt_newest with ⟨entry, newest, _⟩ | ⟨_, answer⟩
  · exact absurd newest.2.1 (absent entry newest.1)
  · exact answer

/-! ## The latest snapshot -/

/-- The form of runs, levels and tombstones, in whatever order versions were inserted. -/
structure Formed (db : Database) : Prop where
  older : ∀ run ∈ db.runs, ∀ entry ∈ run, entry.seq < db.lastSeq
  wellFormed : ∀ table ∈ db.tables, table.WellFormed
  level : ∀ level, 1 ≤ level → level < numLevels →
    Level Entry.key Entry.rank SSTable.entries (db.levels level)
  closed : TieClosed db.runs
  memTombstones : db.mem.rangeTombstones ⊆ db.rangeTombstones
  immTombstones : ∀ imm, db.imm = some imm → imm.rangeTombstones ⊆ db.rangeTombstones

/-- What a point read relies on. -/
structure Readable (db : Database) : Prop extends Formed db where
  memFirst : ∀ key, UserKey key → ∀ head rest, db.mem.versions key = head :: rest →
    Newest Entry.key Entry.rank db.points key head
  immFirst : ∀ imm, db.imm = some imm → ∀ key, UserKey key → db.mem.versions key = [] →
    ∀ head rest, imm.versions key = head :: rest →
      Newest Entry.key Entry.rank db.points key head
  coherent : ∀ first ∈ db.points, ∀ second ∈ db.points, first.key = second.key →
    first.rank = second.rank → first.type = .value →
      db.vlog.unwrap db.disk.vlogs first.value = db.vlog.unwrap db.disk.vlogs second.value

theorem seen_eq_points (older : ∀ run ∈ db.runs, ∀ entry ∈ run, entry.seq < db.lastSeq)
    (latest : db.lastSeq ≤ snapshot) : db.seen snapshot = db.points := by
  ext entry
  refine ⟨And.left, fun member => ⟨member, ?_⟩⟩
  obtain ⟨_, run, in_runs, inside⟩ := member
  exact le_trans (le_of_lt (older run in_runs entry inside)) latest

section

variable (readable : Readable db)
include readable

/-- Such a snapshot finds what the latest one finds. -/
theorem Readable.readableAt (latest : db.lastSeq ≤ snapshot) (user : UserKey key) :
    ReadableAt db snapshot key := by
  have older : ∀ table ∈ db.tables, ∀ entry ∈ table.entries, entry.seq < db.lastSeq :=
    fun table member => readable.older table.entries (.inr (.inr ⟨table, member, rfl⟩))
  have all := seen_eq_points readable.older latest
  have mem_head : db.mem.seen key snapshot = (db.mem.versions key).head? :=
    db.mem.seen_eq_head key fun entry member =>
      le_trans (le_of_lt (readable.older _ (.inl rfl) entry member)) latest
  refine ⟨⟨user, ?_, ?_, ?_⟩, ⟨older, readable.wellFormed, readable.level, ?_⟩, readable.closed⟩
  · intro entry found
    rw [mem_head, head?_eq_some_iff] at found
    obtain ⟨rest, stack⟩ := found
    rw [all]
    exact readable.memFirst key user entry rest stack
  · intro imm rotated unseen entry found
    have imm_head := imm.seen_eq_head key fun entry member => le_trans (le_of_lt
      (readable.older _ (.inr (.inl ⟨imm, rotated, rfl⟩)) entry member)) latest
    rw [mem_head, head?_eq_none_iff] at unseen
    rw [imm_head, head?_eq_some_iff] at found
    obtain ⟨rest, stack⟩ := found
    rw [all]
    exact readable.immFirst imm rotated key user unseen entry rest stack
  · rw [all]
    intro first in_first second in_second first_key second_key
    exact readable.coherent first in_first second in_second (first_key.trans second_key.symm)
  · intro level _ high _ _ second in_second _ _ _
    obtain ⟨table, present, inside⟩ := mem_versionsOf.mp in_second
    exact le_trans (le_of_lt (older table (mem_tables.mpr ⟨level, high, present⟩) second inside))
      latest

theorem Readable.get_eq_readAt : db.get key = db.readAt db.lastSeq key := by
  unfold get
  rw [db.getAt_eq readable.memTombstones readable.immTombstones]
  rfl

/-- A database answers with its newest version of the key. -/
theorem Readable.get_newest (user : UserKey key) :
    (∃ entry, Newest Entry.key Entry.rank db.points key entry ∧
        db.get key = db.resolve entry) ∨
      (∀ entry ∈ db.points, entry.key ≠ key) ∧ db.get key = .error (.notFound "") := by
  have answer := (readable.readableAt (le_refl _) user).readAt_newest
  rw [seen_eq_points readable.older (le_refl _)] at answer
  rw [readable.get_eq_readAt]
  exact answer

theorem Readable.get_eq_resolve (newest : Newest Entry.key Entry.rank db.points key entry) :
    db.get key = db.resolve entry := by
  have user : UserKey key := newest.2.1 ▸ newest.1.1
  rw [← seen_eq_points readable.older (le_refl _)] at newest
  rw [readable.get_eq_readAt]
  exact (readable.readableAt (le_refl _) user).readAt_eq_resolveAt newest

theorem Readable.get_eq_notFound (user : UserKey key)
    (absent : ∀ entry ∈ db.points, entry.key ≠ key) : db.get key = .error (.notFound "") := by
  rcases readable.get_newest user with ⟨entry, newest, _⟩ | ⟨_, answer⟩
  · exact absurd newest.2.1 (absent entry newest.1)
  · exact answer

/-- Two databases answer alike if one has, of every version of the other, one that is at
least as new, and versions resolve alike. -/
theorem Readable.get_eq_of_covers (later_readable : Readable later)
    (covers : Covers Entry.key Entry.rank later.points db.points)
    (alike : ∀ entry ∈ later.points, later.resolve entry = db.resolve entry) (user : UserKey key) :
    later.get key = db.get key := by
  rcases later_readable.get_newest user with ⟨entry, newest, answer⟩ | ⟨absent, answer⟩
  · rw [answer, alike entry newest.1, readable.get_eq_resolve (covers.newest newest)]
  · rw [answer, readable.get_eq_notFound user]
    intro entry member same
    obtain ⟨newer, inside, newer_same⟩ := covers.exists_key_iff.mpr ⟨entry, member, same⟩
    exact absent newer inside newer_same

end

end Database

end LightKV
