import LightKV.Basic
import LightKV.Runs

/-!
# The link of a replica to its master

`ReplSlaveLink::StreamLoop` alternates between two loops. The outer one loads the image that a
FULLRESYNC announced, and on failure connects again; the inner one applies the commands of the
stream until a read fails. Only the branch of a failed image connects again: a read that fails
in the inner loop closes the socket, and the outer loop then finds no image to load, reports
the link online and enters the inner loop without a connection.

The answers of sockets and master are inputs. `turn` is one pass through the outer loop up to
the inner one, `iterate` one pass through the inner loop.
-/

namespace LightKV.ReplicaLink

open Runs

/-- `ReplSlaveState`. -/
inductive ReplSlaveState where
  | disconnected
  | connecting
  | handshaking
  | loadingSnapshot
  | online
  deriving DecidableEq, Repr

/-- What comes of `DoHandshake`. -/
inductive Reply where
  /-- A command in front of PSYNC fails or is refused. -/
  | refused
  /-- PSYNC is sent, and no usable answer comes back. -/
  | unanswered
  /-- The answer announces a full resync, with an offset that is no number. -/
  | garbled (id : String)
  | continues (id : String)
  | fullResync (id : String) (offset : Nat)
  deriving DecidableEq, Repr

/-- What comes of the image a FULLRESYNC announced. -/
inductive Image (δ : Type) where
  | unreadable
  /-- `LoadFullImage` fails and leaves the given data. -/
  | notInstalled (data : δ)
  | installed (data : δ)
  deriving DecidableEq, Repr

/-- What a read of a frame gives. -/
inductive Frame (κ : Type) where
  | fails
  /-- A reply of the master, or anything else that is no command array. -/
  | other
  | command (command : κ)
  deriving DecidableEq, Repr

/-- What the surroundings answer during one pass. -/
structure Input (δ κ : Type) where
  image : Image δ
  opens : Bool
  reply : Reply
  /-- The frame `SendAck` reads, if it is time for an acknowledgement. -/
  ack : Option (Frame κ)
  frame : Frame κ
  deriving DecidableEq, Repr

/-- The link. `sent`, `handshakes` and `streamed` are not part of the program: what each PSYNC
carried together with the data at that moment, the successful handshakes, and how far the
master's stream was delivered. -/
structure Link (δ : Type) where
  connected : Bool
  state : ReplSlaveState
  pendingFullSync : Bool
  masterReplId : String
  offset : Nat
  data : δ
  /-- Inside the inner loop. -/
  steady : Bool
  sent : List (String × Nat × δ)
  handshakes : Nat
  streamed : Nat
  deriving DecidableEq, Repr

variable {δ κ : Type}

namespace Link

variable (exec : κ → δ → δ) (size : κ → Nat) (link : Link δ) (input : Input δ κ)

/-- `CloseSocket`, reported as a lost connection. -/
def disconnect : Link δ :=
  { link with connected := false, state := .disconnected }

/-- The link sends PSYNC with its position. -/
def psync : Link δ :=
  { link with
    sent := (if link.masterReplId = "" then "?" else link.masterReplId, link.offset, link.data) ::
      link.sent }

/-- `DoHandshake`, and whether it succeeds. -/
def doHandshake : Reply → Link δ × Bool
  | .refused => (link, false)
  | .unanswered => (link.psync, false)
  | .garbled id => ({ link.psync with pendingFullSync := true, masterReplId := id }, false)
  | .continues id =>
      ({ link.psync with
          pendingFullSync := false
          masterReplId := id
          handshakes := link.handshakes + 1
          streamed := link.offset }, true)
  | .fullResync id offset =>
      ({ link.psync with
          pendingFullSync := true
          masterReplId := id
          offset := offset
          handshakes := link.handshakes + 1
          streamed := offset }, true)

/-- The branch of `StreamLoop` behind a failed image: one attempt to connect again. -/
def reconnect : Link δ :=
  let closed := link.disconnect
  if input.opens then
    let answered := { closed with connected := true }.doHandshake input.reply
    if answered.2 then { answered.1 with state := .online }
    else { answered.1 with connected := false }
  else closed

/-- One pass through the outer loop, up to the inner one. Without a connection no image can be
read. -/
def turn : Link δ :=
  if link.pendingFullSync then
    let loading := { link with pendingFullSync := false, state := .loadingSnapshot }
    match if link.connected then input.image else .unreadable with
    | .unreadable => loading.reconnect input
    | .notInstalled data => { loading with data := data }.reconnect input
    | .installed data => { loading with data := data, state := .online, steady := true }
  else { link with state := .online, steady := true }

/-- A command that is delivered moves the stream forward. -/
def deliver : Frame κ → Link δ
  | .command command => { link with streamed := link.streamed + size command }
  | _ => link

/-- One pass through the inner loop. Without a connection every read times out. -/
def iterate : Link δ :=
  if link.connected then
    -- The answer to the acknowledgement is whatever frame comes next.
    let acked := link.deliver size (input.ack.getD .fails)
    match input.frame with
    | .fails => { acked.disconnect with steady := false }
    | .other => acked
    | .command command =>
        { acked.deliver size input.frame with
          data := exec command acked.data
          offset := acked.offset + size command }
  else { link.disconnect with steady := false }

/-- One pass of `StreamLoop`. -/
def step : Link δ :=
  if link.steady then link.iterate exec size input else link.turn input

/-- `ConnectAndHandshake` on a new link. -/
def start (data : δ) (reply : Reply) : Link δ × Bool :=
  let answered := doHandshake
    { connected := true, state := .handshaking, pendingFullSync := false, masterReplId := ""
      offset := 0, data := data, steady := false, sent := [], handshakes := 0, streamed := 0 }
    reply
  if answered.2 then ({ answered.1 with state := .online }, true)
  else (answered.1.disconnect, false)

/-- The link after the given number of passes. -/
def after (link : Link δ) (inputs : Nat → Input δ κ) : Nat → Link δ
  | 0 => link
  | passes + 1 => (link.after inputs passes).step exec size (inputs passes)

/-! ## Coming back -/

/-- The pass fails to load an image. -/
def FailsImage : Prop :=
  link.steady = false ∧ link.pendingFullSync = true ∧
    (link.connected = true → ∀ data, input.image ≠ .installed data)

/-- Reads fail only while an image is loaded, and the attempt to connect that follows gets an
answer to PSYNC. -/
def Survives : Prop :=
  (link.steady = true → input.frame ≠ .fails) ∧
    (link.FailsImage input →
      input.opens = true ∧ input.reply ≠ .refused ∧ input.reply ≠ .unanswered)

/-- The master can be reached: it accepts the replica, and its image can be loaded. -/
def Reachable : Prop :=
  (∃ data, input.image = .installed data) ∧ ∀ id, input.reply ≠ .garbled id

variable {link input}

/-- A delivery touches nothing but the count of it. -/
theorem deliver_eq (link : Link δ) (frame : Frame κ) :
    ∃ streamed, link.deliver size frame = { link with streamed := streamed } := by
  cases frame <;> exact ⟨_, rfl⟩

/-- A pass through the inner loop that reads a frame keeps the connection. -/
theorem steady_step (steady : link.steady = true) (connected : link.connected = true)
    (reads : input.frame ≠ .fails) :
    (link.step exec size input).steady = true ∧ (link.step exec size input).connected = true ∧
      (link.step exec size input).handshakes = link.handshakes ∧
      ∀ command, input.frame = .command command →
        (link.step exec size input).data = exec command link.data ∧
        (link.step exec size input).offset = link.offset + size command := by
  obtain ⟨_, _, _, ack, frame⟩ := input
  obtain ⟨_, _⟩ := deliver_eq size link (ack.getD .fails)
  cases frame <;> simp_all [step, iterate, deliver]

/-- The link waits for an image without a connection: it is about to connect again. -/
def Retrying (link : Link δ) : Prop :=
  link.connected = false ∧ link.pendingFullSync = true ∧ link.steady = false ∧
    link.state ≠ .online

/-- A pass that fails to load an image tries to connect again, with the same data unless the image
was read. -/
theorem failed_turn (fails : link.FailsImage input) :
    ∃ data, link.step exec size input =
      { link with pendingFullSync := false, state := .loadingSnapshot, data := data }.reconnect
        input ∧ ((link.connected = true → input.image = .unreadable) → data = link.data) := by
  obtain ⟨outer, pending, lost⟩ := fails
  cases connected : link.connected
  · exact ⟨link.data, by simp [step, turn, outer, pending, connected]⟩
  · cases image : input.image with
    | installed data => exact absurd image (lost connected data)
    | unreadable => exact ⟨link.data, by simp [step, turn, outer, pending, connected, image]⟩
    | notInstalled data => exact ⟨data, by simp [step, turn, outer, pending, connected, image]⟩

/-- It ends with a new connection, unless the answer to PSYNC announces no number. -/
theorem failed_step (fails : link.FailsImage input) (survives : link.Survives input) :
    ((link.step exec size input).Retrying ∧ (∃ id, input.reply = .garbled id) ∧
      (link.step exec size input).handshakes = link.handshakes) ∨
    ((link.step exec size input).connected = true ∧
      (link.step exec size input).handshakes = link.handshakes + 1) := by
  obtain ⟨_, _, _⟩ := survives.2 fails
  obtain ⟨_, _, _⟩ := failed_turn exec size fails
  have outer := fails.1
  cases reply : input.reply <;> simp_all [Retrying, reconnect, doHandshake, psync, disconnect]

/-- Every other pass through the outer loop enters the inner one, with the image if there is
one. -/
theorem loaded_turn (outer : link.steady = false) (loads : ¬ link.FailsImage input) :
    ∃ data, link.step exec size input =
        { link with pendingFullSync := false, state := .online, data := data, steady := true } ∧
      (link.pendingFullSync = false ∧ data = link.data ∨
        link.pendingFullSync = true ∧ input.image = .installed data) := by
  cases pending : link.pendingFullSync
  · simp_all [step, turn]
  have installed : link.connected = true ∧ ∃ data, input.image = .installed data := by
    by_contra none
    exact loads ⟨outer, pending, fun connected data image => none ⟨connected, data, image⟩⟩
  obtain ⟨connected, data, image⟩ := installed
  exact ⟨data, by simp [step, turn, outer, pending, connected, image], .inr ⟨rfl, image⟩⟩

theorem entered_step (outer : link.steady = false) (loads : ¬ link.FailsImage input) :
    (link.step exec size input).steady = true ∧
      (link.step exec size input).connected = link.connected := by
  obtain ⟨_, entered, _⟩ := loaded_turn exec size outer loads
  rw [entered]
  exact ⟨rfl, rfl⟩

/-- Under the condition the link has a connection or is about to open one. -/
theorem connected_step (kept : link.connected = true ∨ link.Retrying)
    (survives : link.Survives input) :
    (link.step exec size input).connected = true ∨ (link.step exec size input).Retrying := by
  by_cases fails : link.FailsImage input
  · rcases failed_step exec size fails survives with failed | failed
    · exact .inr failed.1
    · exact .inl failed.1
  rcases kept with connected | ⟨closed, pending, outer, _⟩
  · cases steady : link.steady
    · exact .inl ((entered_step exec size steady fails).2.trans connected)
    · exact .inl (steady_step exec size steady connected (survives.1 steady)).2.1
  · exact absurd ⟨outer, pending, by simp [closed]⟩ fails

/-- Without a connection and without an image to load, a pass changes nothing but the reported
state. -/
theorem down_step (closed : link.connected = false) (idle : link.pendingFullSync = false) :
    (link.step exec size input).connected = false ∧
      (link.step exec size input).pendingFullSync = false ∧
      (link.step exec size input).handshakes = link.handshakes ∧
      (link.step exec size input).data = link.data := by
  cases steady : link.steady <;> simp [step, turn, iterate, disconnect, steady, closed, idle]

end Link

open Link

/-- A replica link comes back when reads fail only while an image is loaded and the attempt to
connect that follows gets an answer: it is never reported online without a connection, and
once the master can be reached each failure is followed by a new handshake, after which the
link stays in the inner loop and applies every command. -/
theorem link_recovers (exec : κ → δ → δ) (size : κ → Nat) (data : δ) (reply : Reply)
    (inputs : Nat → Input δ κ) (accepted : (start data reply).2 = true)
    (survives : ∀ pass, Survives ((start data reply).1.after exec size inputs pass) (inputs pass))
    (reachable : ∃ moment, ∀ pass ≥ moment, Reachable (inputs pass)) :
    let link := fun pass => (start data reply).1.after exec size inputs pass
    (∀ pass, (link pass).state = .online → (link pass).connected = true) ∧
    (∀ pass, (link pass).FailsImage (inputs pass) →
      ∃ later, (link pass).handshakes < (link later).handshakes) ∧
    ∃ moment, ∀ pass ≥ moment, (link pass).steady = true ∧ (link pass).connected = true ∧
      ∀ command, (inputs pass).frame = .command command →
        (link (pass + 1)).data = exec command (link pass).data := by
  intro link
  have kept : ∀ pass, (link pass).connected = true ∨ (link pass).Retrying := by
    intro pass
    induction pass with
    | zero => cases reply <;> simp_all [link, after, start, doHandshake, psync]
    | succ pass ih => exact connected_step exec size ih (survives pass)
  obtain ⟨moment, reachable⟩ := reachable
  -- Only an answer without a number keeps a pass from a handshake, and the next pass tries again.
  have shakes : ∀ wait pass, moment ≤ pass + wait → (link pass).FailsImage (inputs pass) →
      ∃ later, (link pass).handshakes < (link later).handshakes := by
    intro wait
    induction wait with
    | zero =>
      intro pass late fails
      rcases failed_step exec size fails (survives pass) with ⟨_, ⟨id, garbled⟩, _⟩ | ⟨_, shaken⟩
      · exact absurd garbled ((reachable pass late).2 id)
      · exact ⟨pass + 1, by simp [link, after, shaken]⟩
    | succ wait ih =>
      intro pass late fails
      rcases failed_step exec size fails (survives pass) with ⟨retrying, _, same⟩ | ⟨_, shaken⟩
      · obtain ⟨closed, pending, outer, _⟩ := retrying
        obtain ⟨later, more⟩ := ih (pass + 1) (by omega) ⟨outer, pending, by simp_all [link, after]⟩
        exact ⟨later, by simpa [link, after, same] using more⟩
      · exact ⟨pass + 1, by simp [link, after, shaken]⟩
  have connects : ∀ pass ≥ moment, (link (pass + 1)).connected = true := by
    intro pass late
    by_cases fails : (link pass).FailsImage (inputs pass)
    · rcases failed_step exec size fails (survives pass) with ⟨_, ⟨id, garbled⟩, _⟩ | ⟨open_, _⟩
      · exact absurd garbled ((reachable pass late).2 id)
      · exact open_
    rcases kept (pass + 1) with connected | retrying
    · exact connected
    cases steady : (link pass).steady
    · have entered := (entered_step exec size steady fails).1
      exact absurd retrying.2.2.1 (by simp [link, after, entered])
    · rcases kept pass with connected | waits
      · exact (steady_step exec size steady connected ((survives pass).1 steady)).2.1
      · exact absurd waits.2.2.1 (by simp [steady])
  have enters : ∀ pass ≥ moment, (link (pass + 2)).steady = true := by
    intro pass late
    cases steady : (link (pass + 1)).steady
    · obtain ⟨data, loads⟩ := (reachable (pass + 1) (by omega)).1
      exact (entered_step exec size steady fun fails => fails.2.2 (connects pass late) data loads).1
    · exact (steady_step exec size steady (connects pass late) ((survives _).1 steady)).1
  refine ⟨fun pass online => ?_, fun pass fails => shakes moment pass (by omega) fails,
    moment + 2, fun pass late => ?_⟩
  · exact (kept pass).resolve_right fun retrying => retrying.2.2.2 online
  obtain ⟨before, rfl⟩ : ∃ before, pass = before + 2 := ⟨pass - 2, by omega⟩
  have steady := enters before (by omega)
  have connected := connects (before + 1) (by omega)
  refine ⟨steady, connected, fun command frame => ?_⟩
  exact ((steady_step exec size steady connected ((survives _).1 steady)).2.2.2 command frame).1

/-- Surroundings in which everything succeeds and the stream brings commands. -/
def reachableInput : Input Nat Nat where
  image := .installed 0
  opens := true
  reply := .continues "m"
  ack := none
  frame := .command 1

/-- The image cannot be read in the first pass only. -/
def lostImage : Nat → Input Nat Nat
  | 0 => { reachableInput with image := .unreadable }
  | _ + 1 => reachableInput

/-- A link that cannot read its first image comes back. -/
theorem link_recovers_lostImage :
    ∃ moment, ∀ pass ≥ moment,
      ((start 0 (.fullResync "m" 0)).1.after (· + ·) id lostImage pass).connected = true := by
  have recovers := link_recovers (· + ·) id 0 (.fullResync "m" 0) lostImage rfl ?_
    ⟨1, fun pass late => ?_⟩
  · obtain ⟨moment, later⟩ := recovers.2.2
    exact ⟨moment, fun pass late => (later pass late).2.1⟩
  · intro pass
    match pass with
    | 0 => exact ⟨by decide, fun _ => by decide⟩
    | 1 => exact ⟨by decide, fun _ => by decide⟩
    | pass + 2 => exact ⟨fun _ => by simp [lostImage, reachableInput],
        fun _ => by simp [lostImage, reachableInput]⟩
  · obtain ⟨before, rfl⟩ : ∃ before, pass = before + 1 := ⟨pass - 1, by omega⟩
    exact ⟨⟨0, rfl⟩, by simp [lostImage, reachableInput]⟩

/-- In the second pass a read fails; everything else succeeds. -/
def lostFrame (pass : Nat) : Input Nat Nat :=
  if pass = 1 then { reachableInput with frame := .fails } else reachableInput

/-- A read fails once in the inner loop, and the master can be reached again at once. The link is
reported online without a connection, and no later pass makes a handshake or applies a
command. -/
theorem link_stays_down :
    let link := (start 0 (.continues "m")).1.after (· + ·) id lostFrame
    (link 3).state = .online ∧ ∀ pass, (link (pass + 2)).connected = false ∧
      (link (pass + 2)).handshakes = 1 ∧ (link (pass + 2)).data = 0 := by
  intro link
  refine ⟨by decide, fun pass => ?_⟩
  have down : (link (pass + 2)).connected = false ∧ (link (pass + 2)).pendingFullSync = false ∧
      (link (pass + 2)).handshakes = 1 ∧ (link (pass + 2)).data = 0 := by
    induction pass with
    | zero => decide
    | succ pass ih =>
      obtain ⟨closed, idle, handshakes, data⟩ := @down_step _ _ (· + ·) id _
        (lostFrame (pass + 2)) ih.1 ih.2.1
      exact ⟨closed, idle, handshakes.trans ih.2.2.1, data.trans ih.2.2.2⟩
  exact ⟨down.1, down.2.2⟩

/-! ## The position -/

/-- What a master has streamed under one replication id: its data at offset zero, and the
commands since. -/
structure History (δ κ : Type) where
  base : δ
  commands : List κ

section Position

variable (exec : κ → δ → δ) (size : κ → Nat) (histories : String → History δ κ)

/-- The data that the master had at an offset. -/
def StateAt (history : History δ κ) (offset : Nat) (data : δ) : Prop :=
  ∃ front rest, history.commands = front ++ rest ∧ (front.map size).sum = offset ∧
    front.foldl (fun data command => exec command data) history.base = data

/-- The command that stands at an offset of the stream. -/
def NextAt (history : History δ κ) (offset : Nat) (command : κ) : Prop :=
  ∃ front rest, history.commands = front ++ command :: rest ∧ (front.map size).sum = offset

/-- The master's image is its data at the offset it announced, its stream goes on where it was
delivered to, and it continues only under the id that it was asked for. -/
structure Truthful (link : Link δ) (input : Input δ κ) : Prop where
  continued : ∀ id, input.reply = .continues id → link.FailsImage input → id = link.masterReplId
  image : ∀ data, input.image = .installed data → link.pendingFullSync = true →
    StateAt exec size (histories link.masterReplId) link.offset data
  ack : ∀ command, input.ack = some (.command command) →
    NextAt size (histories link.masterReplId) link.streamed command
  frame : ∀ command, input.frame = .command command → NextAt size (histories link.masterReplId)
    (link.deliver size (input.ack.getD .fails)).streamed command

/-- A PSYNC follows an image that was not loaded only if the image was not read, and the data that
the link began with is what the master had at the place it announced. -/
def Spared (first : δ) (link : Link δ) (input : Input δ κ) : Prop :=
  link.FailsImage input → input.opens = true → input.reply ≠ .refused →
    (link.connected = true → input.image = .unreadable) ∧
      StateAt exec size (histories link.masterReplId) link.offset first

/-- No acknowledgement takes a command for its answer. -/
def KeepsCommands (_ : Link δ) (input : Input δ κ) : Prop :=
  ∀ command, input.ack ≠ some (.command command)

/-- While an image is awaited, the data is what the link began with. -/
structure Untouched (first : δ) (link : Link δ) : Prop where
  awaiting : link.pendingFullSync = true → link.steady = false ∧ link.data = first

/-- What PSYNC has carried describes the data at that time. -/
structure SentDescribes (first : δ) (link : Link δ) : Prop extends Untouched first link where
  sent : ∀ entry ∈ link.sent, entry.1 ≠ "?" →
    StateAt exec size (histories entry.1) entry.2.1 entry.2.2

/-- The position describes the data of a connected link that waits for no image, and the stream
is delivered to that position. -/
structure Positioned (first : δ) (link : Link δ) : Prop extends Untouched first link where
  position : link.connected = true →
    (link.pendingFullSync = false →
      StateAt exec size (histories link.masterReplId) link.offset link.data) ∧
    link.streamed = link.offset

variable {exec size histories} {first : δ}

/-- No image is awaited in the inner loop. -/
theorem Untouched.idle (untouched : Untouched first link) (steady : link.steady = true) :
    link.pendingFullSync = false := by
  by_contra pending
  simpa [steady] using (untouched.awaiting (by simpa using pending)).1

/-- Until an image is loaded or the stream continues, only an image can change the data. -/
theorem Untouched.step (untouched : Untouched first link)
    (spared : Spared exec size histories first link input) :
    Untouched first (link.step exec size input) := by
  constructor
  by_cases fails : link.FailsImage input
  · obtain ⟨data, failed, kept⟩ := failed_turn exec size fails
    rw [failed]
    by_cases asks : input.opens = true ∧ input.reply ≠ .refused
    · obtain rfl := kept (spared fails asks.1 asks.2).1
      obtain ⟨outer, same⟩ := untouched.awaiting fails.2.1
      cases reply : input.reply <;> simp_all [reconnect, doHandshake, psync, disconnect]
    · cases opens : input.opens <;> simp_all [reconnect, doHandshake, disconnect]
  cases steady : link.steady
  · obtain ⟨_, entered, _⟩ := loaded_turn exec size steady fails
    simp [entered]
  · have idle := untouched.idle steady
    obtain ⟨_, _⟩ := deliver_eq size link (input.ack.getD .fails)
    cases connected : link.connected <;> cases frame : input.frame <;>
      simp_all [Link.step, iterate, deliver, disconnect]

/-- Each command moves the stream forward, so an offset has one place in it. -/
theorem StateAt.next (positive : ∀ command, 0 < size command) {history : History δ κ}
    {offset : Nat} {data : δ} (current : StateAt exec size history offset data)
    (next : NextAt size history offset command) :
    StateAt exec size history (offset + size command) (exec command data) := by
  obtain ⟨front, rest, split, total, state⟩ := current
  obtain ⟨before, later, also, same⟩ := next
  have shorter : ∀ first second : List κ, first <+: second →
      (first.map size).sum = (second.map size).sum → first = second := by
    rintro _ _ ⟨extra, rfl⟩ sums
    cases extra with
    | nil => simp
    | cons command _ =>
      have := positive command
      simp at sums
      omega
  have equal : front = before := by
    rcases List.prefix_or_prefix_of_prefix ⟨rest, split.symm⟩ ⟨command :: later, also.symm⟩ with
      inside | inside
    · exact shorter _ _ inside (total.trans same.symm)
    · exact (shorter _ _ inside (same.trans total.symm)).symm
  subst equal
  refine ⟨front ++ [command], later, by simp [also], by simp [total], by simp [state]⟩

/-- Only the branch of a failed image sends PSYNC. -/
theorem SentDescribes.step (describes : SentDescribes exec size histories first link)
    (spared : Spared exec size histories first link input) :
    SentDescribes exec size histories first (link.step exec size input) := by
  refine ⟨describes.toUntouched.step spared, ?_⟩
  have sent := describes.sent
  by_cases fails : link.FailsImage input
  · obtain ⟨data, failed, kept⟩ := failed_turn exec size fails
    rw [failed]
    by_cases silent : input.opens = false ∨ input.reply = .refused
    · have same : (reconnect { link with
          pendingFullSync := false, state := .loadingSnapshot, data := data } input).sent =
          link.sent := by
        rcases silent with shut | refused <;> simp_all [reconnect, doHandshake, disconnect]
      rwa [same]
    obtain ⟨opens, asked⟩ : input.opens = true ∧ input.reply ≠ .refused := by
      simpa using silent
    obtain ⟨unread, current⟩ := spared fails opens asked
    obtain rfl := kept unread
    rw [← (describes.awaiting fails.2.1).2] at current
    have same : (reconnect { link with
        pendingFullSync := false, state := .loadingSnapshot } input).sent = link.psync.sent := by
      cases reply : input.reply with
      | refused => exact absurd reply asked
      | _ =>
        rw [reconnect, opens, reply]
        rfl
    rw [same, psync, List.forall_mem_cons]
    refine ⟨fun named => ?_, sent⟩
    by_cases empty : link.masterReplId = ""
    · simp [empty] at named
    · simpa [empty] using current
  cases steady : link.steady
  · obtain ⟨_, entered, _⟩ := loaded_turn exec size steady fails
    rwa [entered]
  · obtain ⟨_, _⟩ := deliver_eq size link (input.ack.getD .fails)
    cases connected : link.connected <;> cases frame : input.frame <;>
      simp_all [Link.step, iterate, deliver, disconnect]

/-- A pass keeps that. -/
theorem Positioned.step (positive : ∀ command, 0 < size command)
    (positioned : Positioned exec size histories first link)
    (spared : Spared exec size histories first link input) (keeps : KeepsCommands link input)
    (truthful : Truthful exec size histories link input) :
    Positioned exec size histories first (link.step exec size input) := by
  refine ⟨positioned.toUntouched.step spared, ?_⟩
  by_cases fails : link.FailsImage input
  · obtain ⟨data, failed, kept⟩ := failed_turn exec size fails
    rw [failed]
    cases opens : input.opens with
    | false => simp [reconnect, disconnect, opens]
    | true =>
      -- Only a CONTINUE leaves a connection that waits for no image.
      cases reply : input.reply with
      | continues id =>
        obtain ⟨unread, current⟩ := spared fails opens (by simp [reply])
        obtain rfl := kept unread
        rw [← (positioned.awaiting fails.2.1).2] at current
        obtain rfl := truthful.continued id reply fails
        simp [reconnect, doHandshake, psync, disconnect, opens, reply, current]
      | _ => simp [reconnect, doHandshake, psync, disconnect, opens, reply]
  cases steady : link.steady
  · obtain ⟨data, entered, source⟩ := loaded_turn exec size steady fails
    rw [entered]
    intro connected
    obtain ⟨describes, delivered⟩ := positioned.position connected
    refine ⟨fun _ => ?_, delivered⟩
    rcases source with ⟨idle, rfl⟩ | ⟨pending, image⟩
    · exact describes idle
    · exact truthful.image data image pending
  · cases connected : link.connected
    · simp [Link.step, iterate, disconnect, steady, connected]
    obtain ⟨describes, delivered⟩ := positioned.position connected
    have idle := positioned.idle steady
    have acked : link.deliver size (input.ack.getD .fails) = link := by
      cases ack : input.ack with
      | none => rfl
      | some reply => cases reply with
        | command command => exact absurd ack (keeps command)
        | _ => rfl
    cases frame : input.frame with
    | command command =>
      have next := truthful.frame command frame
      simp only [acked, delivered] at next
      have moved := (describes idle).next positive next
      simp_all [Link.step, iterate, deliver]
    | _ => simp_all [Link.step, iterate, disconnect]

end Position

/-- The master starts empty and streams one command. -/
def oneCommand (_ : String) : History Nat Nat where
  base := 0
  commands := [1]

end LightKV.ReplicaLink
