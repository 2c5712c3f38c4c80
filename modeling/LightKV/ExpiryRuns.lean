import LightKV.Expiry
import LightKV.Runs

/-!
# Expiry over runs

A value and its expiry are two rows, and SET, MSET, GETSET and RENAME write the first of them. A
value that takes the place of one with an expiry is therefore gone when that has passed. In a
cluster the handlers of reads and the background cycle remove expired keys outside of the log, by
the clock of their own node, and entries that are applied before the server is set are mostly
dropped. While nothing examined has expired and the server is set in time, the rows are those that
the log gives.
-/

namespace LightKV.Expiry

open Resp Runs List

/-! ## The background cycle -/

/-- The rows, the expiries that the running cycle has scanned, and whether `SetServer` was called
since the start of the process. -/
structure Node where
  rows : Rows
  scanned : Rows := []
  served : Bool := false
  deriving DecidableEq

/-- The scan of a cycle. Its prefix is a C string that ends in front of the zero byte. -/
def Node.scan (node : Node) : Node :=
  { node with scanned := node.rows.filter fun row => ttlFront.isPrefixOf row.1 }

/-- The key of a scanned expiry. -/
def origKey (record : Bytes) : Bytes := record.drop 7

/-- What a sampled expiry does at a time. -/
def Node.sample (now : Int) (node : Node) (index : Nat) : Node :=
  match node.scanned[index]? with
  | none => node
  | some (record, expiry) =>
      if (stoll expiry).any (· ≤ now) then
        { node with rows :=
          ((node.rows.delete (origKey record)).delete record).eraseZset (origKey record) }
      else node

/-! ## Replaced values -/

/-- The commands that replace a value; SET has no options here. -/
inductive Replace where
  | set (key value : Bytes)
  | mset (pairs : List (Bytes × Bytes))
  | getset (key value : Bytes)
  | rename (source target : Bytes)

def handleRename (rows : Rows) (source target : Bytes) : Rows :=
  (rows.get source).elim rows fun value =>
    let rows := (rows.put target value).delete source
    (rows.get (ttlKey source)).elim rows fun expiry =>
      (rows.put (ttlKey target) expiry).delete (ttlKey source)

def Replace.exec (now : Int) (rows : Rows) : Replace → Rows
  | .set key value => rows.put key value
  | .mset pairs => pairs.foldl (fun rows pair => rows.put pair.1 pair.2) rows
  | .getset key value => (rows.expireIfNeeded now key).put key value
  | .rename source target => handleRename rows source target

/-- The value that a key is given; RENAME counts when the source has no expiry. -/
def Replace.gives (rows : Rows) (key : Bytes) : Replace → Option Bytes
  | .set name value | .getset name value => if name = key then some value else none
  | .mset pairs =>
      pairs.foldl (fun given pair => if pair.1 = key then some pair.2 else given) none
  | .rename source target =>
      if target = key ∧ source ≠ key ∧ rows.get (ttlKey source) = none then rows.get source
      else none

/-- The keys that a command names. -/
def Replace.names : Replace → List Bytes
  | .set key _ | .getset key _ => [key]
  | .mset pairs => pairs.map (·.1)
  | .rename source target => [source, target]

section Values

variable {rows : Rows} {key value : Bytes} {command : Replace}

/-- The loop of MSET, with the value given so far. -/
theorem get_mset {pairs : Rows} (users : ∀ pair ∈ pairs, isInternalKey pair.1 = false)
    (holds : ∀ value, start = some value → rows.get key = some value)
    (given : pairs.foldl (fun given pair => if pair.1 = key then some pair.2 else given) start =
      some value) :
    let after := pairs.foldl (fun rows pair => rows.put pair.1 pair.2) rows
    after.get key = some value ∧ after.get (ttlKey key) = rows.get (ttlKey key) := by
  induction pairs generalizing rows start with
  | nil => exact ⟨holds value given, rfl⟩
  | cons pair _ ih =>
    obtain ⟨user, users⟩ := forall_mem_cons.mp users
    have held : ∀ value, (if pair.1 = key then some pair.2 else start) = some value →
        (rows.put pair.1 pair.2).get key = some value := by
      intro last eq
      by_cases same : pair.1 = key
      · simpa [same] using eq
      · simpa [Ne.symm same] using holds last (by simpa [same] using eq)
    obtain ⟨found, kept⟩ := ih users held given
    exact ⟨found, kept.trans (by simp [(ne_ttlKey user).symm])⟩

/-- The command writes the value and leaves the row of the expiry. -/
theorem get_exec (visible : isInternalKey key = false) (pending : rows.due now key = false)
    (users : ∀ name ∈ command.names, isInternalKey name = false)
    (given : command.gives rows key = some value) :
    (command.exec now rows).get key = some value ∧
      (command.exec now rows).get (ttlKey key) = rows.get (ttlKey key) := by
  have apart := (@ne_ttlKey key key visible).symm
  cases command with
  | set name written =>
    obtain ⟨rfl, rfl⟩ : name = key ∧ written = value := by simpa [Replace.gives] using given
    simp [Replace.exec, apart]
  | mset _ => exact get_mset (by simpa [Replace.names] using users) (by simp) given
  | getset name written =>
    obtain ⟨rfl, rfl⟩ : name = key ∧ written = value := by simpa [Replace.gives] using given
    simp [Replace.exec, Rows.expireIfNeeded, pending, apart]
  | rename source target =>
    obtain ⟨⟨rfl, other, none⟩, held⟩ := by simpa [Replace.gives] using given
    have moved : Replace.exec now rows (.rename source target) =
        (rows.put target value).delete source := by
      simp [Replace.exec, handleRename, held, none, (ne_ttlKey visible).symm]
    have user : isInternalKey source = false := users source (by simp [Replace.names])
    simp [moved, Ne.symm other, (ne_ttlKey user).symm, apart]

/-- With a pending expiry the value that takes the old one's place can be read until that expiry,
and at no time from then on. RENAME moves the expiry of its source, over one that the target has. -/
theorem replaced_value_never_stays (visible : isInternalKey key = false) :
    (∀ expiry, rows.expiry key = some expiry → now < expiry →
      (∀ name ∈ command.names, isInternalKey name = false) →
      command.gives rows key = some value → ∀ time,
        handleGet time (command.exec now rows) key = if time < expiry then some value else none) ∧
    ∀ source expiry, source ≠ key → isInternalKey source = false →
      rows.get source = some value → rows.get (ttlKey source) = some expiry →
      let after := (Replace.rename source key).exec now rows
      after.get key = some value ∧ after.get (ttlKey key) = some expiry ∧
        after.get source = none ∧ after.get (ttlKey source) = none := by
  constructor
  · intro expiry stored early users given time
    have pending : rows.due now key = false := by simp [Rows.due, stored, early]
    obtain ⟨held, kept⟩ := get_exec visible pending users given
    have still : (command.exec now rows).due time key = decide (expiry ≤ time) := by
      rw [Rows.due, Rows.expiry, kept]
      unfold Rows.expiry at stored
      rw [stored]
      rfl
    rcases lt_or_ge time expiry with before | behind
    · simp [handleGet, Rows.expireIfNeeded, still, before, not_le.mpr before, held]
    · simp [handleGet, Rows.expireIfNeeded, still, behind, not_lt.mpr behind,
        get_forget (not_ofZset visible)]
  · intro _ expiry other user held stored
    have apart := ttlKey_inj.not.mpr other
    simp [Replace.exec, handleRename, held, stored, (ne_ttlKey user).symm, (ne_ttlKey visible).symm,
      ne_ttlKey user, ne_ttlKey visible, Ne.symm other, Ne.symm apart]

end Values

theorem replaced_value_never_stays_shared :
    (∀ time, handleGet time ((Replace.mset [([107], [98])]).exec 50 expiring) [107] =
      if time < 100 then some [98] else none) ∧
    let after := (Replace.rename [107] [115]).exec 50 expiring
    after.get [115] = some [97] ∧ after.get (ttlKey [115]) = some (ascii "100") ∧
      after.get [107] = none ∧ after.get (ttlKey [107]) = none :=
  ⟨(replaced_value_never_stays (by decide)).1 100 (by decide) (by decide) (by decide) (by decide),
    (@replaced_value_never_stays expiring [115] [97] (.mset []) 50 (by decide)).2 [107]
      (ascii "100") (by decide) (by decide) (by decide) (by decide)⟩

/-- The value of `k` that is written at 50 goes with the old expiry. -/
theorem replaced_value_expires :
    [Replace.set [107] [98], .mset [([107], [98])], .getset [107] [98], .rename [115] [107]].all
      fun command => handleGet 99 (command.exec 50 expiring) [107] = some [98] &&
        handleGet 100 (command.exec 50 expiring) [107] = none := by decide

/-! ## Clusters -/

/-- `is_raft_replicated_command`. -/
def isRaftReplicatedCommand (cmd : String) : Bool :=
  ["SET", "SETNX", "GETSET", "APPEND", "MSET", "INCR", "DECR", "INCRBY", "DECRBY", "INCRBYFLOAT",
    "DEL", "DELRANGE", "RENAME", "RENAMENX", "HSET", "HMSET", "HDEL", "HINCRBY", "LPUSH", "RPUSH",
    "LPOP", "RPOP", "LSET", "LREM", "LTRIM", "SADD", "SREM", "SMOVE", "SETBIT", "ZADD", "ZREM",
    "GEOADD"].contains cmd

/-- `is_mutating_command`, whose list holds the replicated commands and these. -/
def isMutatingCommand (cmd : String) : Bool :=
  isRaftReplicatedCommand cmd || ["SETEX", "PSETEX", "SETRANGE", "UNLINK", "EXPIRE", "PEXPIRE",
    "EXPIREAT", "PEXPIREAT", "PERSIST", "HINCRBYFLOAT", "HSETNX", "LPUSHX", "RPUSHX", "LINSERT",
    "RPOPLPUSH", "LMOVE", "SPOP", "SINTERSTORE", "SUNIONSTORE", "SDIFFSTORE", "BITOP", "PFADD",
    "PFMERGE", "ZINCRBY", "ZREMRANGEBYSCORE", "ZREMRANGEBYRANK", "ZREMRANGEBYLEX", "ZUNIONSTORE",
    "ZINTERSTORE", "ZDIFFSTORE", "FLUSHALL", "FLUSHDB"].contains cmd

/-- `raft_write_guard` lets a command pass. No replicated command is among those it takes for not
deterministic; the options of SET are upper case here. -/
def passesGuard (leader : Bool) (cmd : String) (args : List Bytes) : Bool :=
  !isMutatingCommand cmd || leader && isRaftReplicatedCommand cmd &&
    (cmd != "SET" || (args.drop 2).all fun option =>
      !(["EX", "PX", "EXAT", "PXAT", "KEEPTTL"].map ascii).contains option)

/-- The keys that the handler of a read examines; other reads examine none. -/
def examined (rows : Rows) (cmd : String) : List Bytes → List Bytes
  | [] => []
  | key :: rest =>
      if cmd = "KEYS" then rows.names
      else if ["MGET", "EXISTS"].contains cmd then key :: rest
      else if ["GET", "STRLEN", "TYPE", "TTL", "PTTL"].contains cmd ||
        cmd = "GETRANGE" && 2 ≤ rest.length then [key]
      else []

/-- What a node gets from the log: committed commands, and images in place of compacted ones. -/
inductive Logged where
  | command (cmd : String) (args : List Bytes)
  | image (rows : Rows)

/-- The events of a node. `start` is a start of the process on its database, `setServer` the call
of `SetServer` behind the start of Raft. -/
inductive Event where
  | start
  | setServer
  | client (now : Int) (leader : Bool) (cmd : String) (args : List Bytes)
  | scan
  | sample (now : Int) (index : Nat)
  | log (now : Int) (item : Logged)

/-- What the log of a run holds. -/
def logged (events : List Event) : List Logged :=
  events.filterMap fun
    | .log _ item => some item
    | _ => none

section Cluster

-- What the handlers of the replicated commands other than GETSET, APPEND and DEL do to the rows.
variable (effect : String → List Bytes → Rows → Rows)

/-- `ExecuteLocally`. -/
def executeLocally (examine : Rows → Bytes → Rows) (rows : Rows) : String → List Bytes → Rows
  | "GETSET", key :: value :: _ => (examine rows key).put key value
  | "APPEND", key :: value :: _ =>
      (examine rows key).put key (((examine rows key).get key).getD [] ++ value)
  | "DEL", keys => keys.foldl (fun rows key => (examine rows key).forget key) rows
  | cmd, args => effect cmd args rows

/-- What `Apply` does as long as there is no server. -/
def applyUnserved (rows : Rows) : String → List Bytes → Rows
  | "SET", key :: value :: _ => rows.put key value
  | "DEL", key :: _ :: _ => rows.delete key
  | _, _ => rows

/-- `RaftCommandAdapter::Apply`, and the installation of an image. -/
def applyLogged (served : Bool) (examine : Rows → Bytes → Rows) (rows : Rows) : Logged → Rows
  | .image image => image
  | .command cmd args =>
      if served then executeLocally effect examine rows cmd args else applyUnserved rows cmd args

/-- A write of a client is refused or proposed, which changes no row. -/
def Node.take (node : Node) : Event → Node
  | .start => { rows := node.rows }
  | .setServer => { node with served := true }
  | .client now leader cmd args =>
      if passesGuard leader cmd args && !isRaftReplicatedCommand cmd then
        { node with rows :=
          (examined node.rows cmd args).foldl (Rows.expireIfNeeded now) node.rows }
      else node
  | .scan => node.scan
  | .sample now index => node.sample now index
  | .log now item =>
      { node with
        rows := applyLogged effect node.served (Rows.expireIfNeeded now) node.rows item }

/-- Nothing that an event examines has expired by the node's clock; DEL removes a key either way.
The link that REPLICAOF starts would replace the rows. Entries are applied when there is a
server. -/
def Quiet (node : Node) : Event → Prop
  | .client now _ cmd args =>
      cmd ≠ "REPLICAOF" ∧ ∀ key ∈ examined node.rows cmd args, node.rows.due now key = false
  | .sample now index => ∀ row ∈ node.scanned[index]?, (stoll row.2).any (· ≤ now) = false
  | .log now (.command cmd args) => node.served = true ∧
      (["GETSET", "APPEND"].contains cmd = true → ∀ key ∈ args.head?, node.rows.due now key = false)
  | .start | .setServer | .scan | .log _ (.image _) => True

instance : Decidable (Quiet node event) := by
  unfold Quiet
  split <;> infer_instance

variable {effect} {rows : Rows} {node : Node}

theorem expireIfNeeded_quiet (quiet : rows.due now key = false) :
    rows.expireIfNeeded now key = rows := by
  simp [Rows.expireIfNeeded, quiet]

theorem foldl_expire_quiet {keys : List Bytes} (quiet : ∀ key ∈ keys, rows.due now key = false) :
    keys.foldl (Rows.expireIfNeeded now) rows = rows := by
  induction keys with
  | nil => rfl
  | cons _ _ ih =>
    obtain ⟨first, others⟩ := forall_mem_cons.mp quiet
    rw [foldl_cons, expireIfNeeded_quiet first, ih others]

theorem eraseZset_subset : rows.eraseZset name ⊆ rows := by
  unfold Rows.eraseZset
  split <;> simp

/-- What has been removed can be removed again. -/
theorem forget_expire : (rows.expireIfNeeded now key).forget key = rows.forget key := by
  unfold Rows.expireIfNeeded
  split
  case isFalse => rfl
  case isTrue =>
    have gone name (removed : name = key ∨ name = ttlKey key) :
        (rows.forget key).delete name = rows.forget key := by
      refine filter_eq_self.mpr fun _ stored => ?_
      have kept := eraseZset_subset stored
      simp only [Rows.delete, mem_filter] at kept
      rcases removed with rfl | rfl
      · simpa using kept.1.2
      · simpa using kept.2
    rw [Rows.forget, gone key (.inl rfl), gone _ (.inr rfl), Rows.eraseZset, get_forget_zset]
    rfl

/-- A command whose keys have not expired is executed as without a clock. -/
theorem executeLocally_quiet (quiet : ["GETSET", "APPEND"].contains cmd = true →
    ∀ key ∈ args.head?, rows.due now key = false) :
    executeLocally effect (Rows.expireIfNeeded now) rows cmd args =
      executeLocally effect (fun rows _ => rows) rows cmd args := by
  unfold executeLocally
  split <;> simp_all [expireIfNeeded_quiet, forget_expire]

theorem Quiet.take (quiet : Quiet node event) :
    (node.take effect event).rows =
      (logged [event]).foldl (applyLogged effect true fun rows _ => rows) node.rows := by
  cases event with
  | client _ _ _ _ =>
    simp only [Node.take, foldl_expire_quiet quiet.2, ite_self]
    rfl
  | start | setServer | scan => rfl
  | sample now index =>
    have kept : node.sample now index = node := by
      unfold Node.sample
      split
      · rfl
      case h_2 record expiry scanned => simp [quiet (record, expiry) scanned]
    exact congrArg Node.rows kept
  | log _ item =>
    cases item with
    | image _ => rfl
    | command _ _ =>
      obtain ⟨served, quiet⟩ := quiet
      simp [logged, Node.take, applyLogged, served, executeLocally_quiet quiet]

theorem rows_run (quiet : Meets (Node.take effect) Quiet node events) :
    (run (Node.take effect) node events).rows =
      (logged events).foldl (applyLogged effect true fun rows _ => rows) node.rows := by
  induction events generalizing node with
  | nil => rfl
  | cons event events ih =>
    have appended : logged (event :: events) = logged [event] ++ logged events :=
      filterMap_append (l := [event])
    rw [appended, foldl_append, ← quiet.1.take]
    exact ih quiet.2

/-- Where nothing examined has expired, the rows of a node are what its log gives, and nodes with
one log have the same rows. -/
theorem cluster_rows_follow_log {events others : List Event} {other : Node}
    (quiet : Meets (Node.take effect) Quiet node events)
    (otherQuiet : Meets (Node.take effect) Quiet other others)
    (start : other.rows = node.rows) (log : logged others = logged events) :
    (run (Node.take effect) node events).rows =
        (logged events).foldl (applyLogged effect true fun rows _ => rows) node.rows ∧
      (run (Node.take effect) other others).rows = (run (Node.take effect) node events).rows := by
  rw [rows_run quiet, rows_run otherQuiet, start, log]
  exact ⟨rfl, rfl⟩

end Cluster

/-- Of the commands left to `effect`, SET. -/
def handleSet : String → List Bytes → Rows → Rows
  | "SET", [key, value], rows => rows.put key value
  | _, _, rows => rows

theorem cluster_rows_follow_log_appended :
    let entry := Logged.command "APPEND" [[107], [99]]
    (run (Node.take handleSet) { rows := expiring } [.setServer, .log 60 entry]).rows =
      (run (Node.take handleSet) { rows := expiring } [.start, .setServer,
        .client 50 false "GET" [[107]], .scan, .sample 99 0, .log 99 entry]).rows :=
  (cluster_rows_follow_log (by decide) (by decide) rfl rfl).2

/-- A client may write the row of an expiry itself. A node that is then read from is without it. -/
theorem cluster_rows_diverge :
    let log : List Event := [.setServer, .log 0 (.command "SET" [[107], [97]]),
      .log 0 (.command "SET" [ttlKey [107], ascii "100"])]
    let read := log ++ [.client 100 false "GET" [[107]]]
    logged read = logged log ∧ (run (Node.take handleSet) { rows := [] } read).rows = [] ∧
      (run (Node.take handleSet) { rows := [] } log).rows.length = 2 := ⟨rfl, by decide, by decide⟩

end LightKV.Expiry
