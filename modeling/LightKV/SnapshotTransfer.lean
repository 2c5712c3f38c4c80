import LightKV.RaftSnapshot
import LightKV.Runs

/-!
# Chunked snapshot transfer

`SendSnapshotToFollower` reads the snapshot once and then sends chunk after chunk, as far as
the budget of one call goes. The leader remembers per follower how much was acknowledged, the
follower keeps what it has staged. The indices of the follower are moved past the snapshot by
the round that finds everything acknowledged, which may be a round of the next call.

Without loss, each chunk begins where the staged bytes end, so that every request advances the
transfer by one chunk. With loss and with restarts of the follower, what is acknowledged may
be less than what is staged, or more: then the next chunk is refused, and the leader forgets
its progress. But the whole size is acknowledged only by the answer of the handler that has
installed the snapshot.
-/

namespace LightKV.Raft

open List Option

/-- What `SendSnapshotToFollower` reads when it begins. -/
structure SnapshotCall where
  target : Nat
  term : Nat
  snapIndex : Nat
  snapTerm : Nat
  data : Bytes
  deriving DecidableEq, Repr

/-- The progress record of a call of which `sent` bytes are acknowledged. -/
def SnapshotCall.progress (call : SnapshotCall) (sent : Nat) : SnapshotSendState where
  lastIncludedIndex := call.snapIndex
  lastIncludedTerm := call.snapTerm
  totalSize := call.data.length
  sent := sent

namespace Node

variable {σ : Type}

/-- The call that `SendSnapshotToFollower` makes in a state. -/
def snapshotCall (node : Node σ) (target : Nat) : SnapshotCall where
  target := target
  term := node.currentTerm
  snapIndex := node.lastSnapshotIndex
  snapTerm := node.lastSnapshotTerm
  data := node.snapshotData

/-- The progress a leader has recorded for a call. -/
def callProgress (node : Node σ) (call : SnapshotCall) : SnapshotSendState :=
  node.sendProgress call.target call.snapIndex call.snapTerm call.data.length

/-- One round of the chunk loop up to the RPC. -/
def callRequest (node : Node σ) (call : SnapshotCall) :
    Node σ × Option InstallSnapshotChunkRequest :=
  node.chunkRequest call.target call.term call.snapIndex call.snapTerm call.data

/-- How much one call may send. -/
def sendBudget (opts : RaftOptions) : Nat :=
  if opts.snapshotSendBudget = 0 then opts.snapshotChunkSize else opts.snapshotSendBudget

/-- The chunk loop goes on behind an answer: none of its returns is taken. -/
def chunkAdvances (node : Node σ) (req : InstallSnapshotChunkRequest)
    (resp : InstallSnapshotChunkResponse) : Bool :=
  decide (node.role = .leader) && decide (resp.term ≤ node.currentTerm) && !resp.rejected &&
    decide (req.chunkOffset < resp.acceptedLen)

end Node

/-! ## Without loss -/

/-- A leader and a follower, with the number of chunk requests sent so far. -/
structure Transfer (σ : Type) where
  leader : Node σ
  follower : Node σ
  requests : Nat

namespace Transfer

open Node

variable {σ : Type} (machine : Option (StateMachine σ))

/-- One round of the chunk loop whose request and answer both arrive. The number is the length
of the chunk, if the loop may go on. -/
def round (call : SnapshotCall) (transfer : Transfer σ) : Transfer σ × Option Nat :=
  let sending := transfer.leader.callRequest call
  match sending.2 with
  | none => ({ transfer with leader := sending.1 }, none)
  | some req =>
      let result := handleInstallSnapshotChunk machine transfer.follower req
      ({ leader := sending.1.onChunkReply call.target req result.resp
         follower := result.node
         requests := transfer.requests + 1 },
        if sending.1.chunkAdvances req result.resp then some req.data.length else none)

/-- The chunk loop with the budget that is left. The source has no bound on the rounds;
`sendChunks_fuel` shows that this one is not reached. -/
def sendChunks (call : SnapshotCall) : Nat → Nat → Transfer σ → Transfer σ
  | 0, _, transfer => transfer
  | fuel + 1, budget, transfer =>
      match transfer.round machine call with
      | (next, none) => next
      | (next, some taken) =>
          if budget ≤ taken then next
          else sendChunks call fuel (budget - taken) next

/-- `SendSnapshotToFollower`. -/
def sendSnapshotToFollower (target : Nat) (transfer : Transfer σ) : Transfer σ :=
  let leader := transfer.leader
  if leader.role ≠ .leader ∨ leader.snapshotData = [] then transfer
  else
    match leader.snapshotRequest with
    | some req =>
        let result := handleInstallSnapshot machine transfer.follower req
        { transfer with
          leader := leader.onSnapshotReply target req result.2
          follower := result.1 }
    | none =>
        sendChunks machine (leader.snapshotCall target) (leader.snapshotData.length + 1)
          (sendBudget leader.opts) transfer

/-- `ReplicateLog` sends the snapshot while the follower's next index lies within it. -/
def serve (target peer : Nat) (transfer : Transfer σ) : Transfer σ :=
  if transfer.leader.nextIndex.getD peer 0 ≤ transfer.leader.lastSnapshotIndex then
    transfer.sendSnapshotToFollower machine target
  else transfer

end Transfer

/-! ## One round of the leader -/

namespace Node

variable {σ : Type} {node : Node σ} {call : SnapshotCall}

/-- The recorded progress of the call's own image is found again. -/
theorem callProgress_of_find (found : node.snapshotSends.find? (·.1 = call.target) = some
      (call.target, call.progress sent)) : node.callProgress call = call.progress sent := by
  rw [callProgress, sendProgress, found]
  simp [SnapshotCall.progress]

theorem find_setProgress (node : Node σ) (target : Nat) (state : SnapshotSendState) :
    (node.setProgress target state).snapshotSends.find? (·.1 = target) = some (target, state) := by
  simp [setProgress]

/-- A recorded progress is one of the call's own image. -/
theorem exists_callProgress : ∃ sent, node.callProgress call = call.progress sent := by
  unfold callProgress sendProgress
  split
  · exact ⟨0, rfl⟩
  split
  · exact ⟨0, rfl⟩
  · rename_i state _ kept
    simp only [not_or, Decidable.not_not] at kept
    obtain ⟨index_eq, term_eq, size_eq⟩ := kept
    exact ⟨state.sent, by rw [SnapshotCall.progress, ← index_eq, ← term_eq, ← size_eq]⟩

theorem mem_of_callProgress (progress : node.callProgress call = call.progress sent)
    (positive : 0 < sent) : (call.target, call.progress sent) ∈ node.snapshotSends := by
  unfold callProgress sendProgress at progress
  cases found : node.snapshotSends.find? (·.1 = call.target) with
  | none =>
    rw [found] at progress
    exact absurd (congrArg SnapshotSendState.sent progress) (ne_of_lt positive)
  | some entry =>
    have target_eq : entry.1 = call.target := by simpa using find?_some found
    have member := mem_of_find?_eq_some found
    rw [found] at progress
    dsimp only [map_some] at progress
    split at progress
    · exact absurd (congrArg SnapshotSendState.sent progress) (ne_of_lt positive)
    · rw [← progress, ← target_eq]
      exact member

/-- The chunk that follows `sent` acknowledged bytes. -/
def nextChunk (node : Node σ) (call : SnapshotCall) (sent : Nat) : InstallSnapshotChunkRequest :=
  let take := min node.opts.snapshotChunkSize (call.data.length - sent)
  { term := call.term
    leaderId := node.opts.nodeId
    lastIncludedIndex := call.snapIndex
    lastIncludedTerm := call.snapTerm
    chunkOffset := sent
    totalSize := call.data.length
    isLast := decide (call.data.length ≤ sent + take)
    data := (call.data.drop sent).take take }

/-- The next chunk passes the checks of a follower that admits the image. -/
theorem nextChunk_admitted (node : Node σ) {sent : Nat} {opts : RaftOptions}
    (short : sent < call.data.length) (positive : 1 ≤ node.opts.snapshotChunkSize)
    (allowed : call.data.length ≤ opts.maxSnapshotSize) :
    chunkAdmitted opts (node.nextChunk call sent) = true := by
  generalize taken_def : min node.opts.snapshotChunkSize (call.data.length - sent) = taken
  have nonempty := ne_nil_of_length_pos (Nat.zero_lt_of_lt short)
  simp [chunkAdmitted, nextChunk, taken_def, nonempty]
  omega

section Leading

variable (leads : node.role = .leader) (same : node.currentTerm = call.term) {sent : Nat}
  (progress : node.callProgress call = call.progress sent)
include leads same progress

/-- A leader sends the next chunk, or has everything acknowledged and moves the follower's
indices. -/
theorem callRequest_eq :
    node.callRequest call =
      let sending := node.setProgress call.target (call.progress sent)
      if call.data.length ≤ sent then (sending.markInstalled call.target call.snapIndex, none)
      else (sending, some (node.nextChunk call sent)) := by
  have state_eq : node.sendProgress call.target call.snapIndex call.snapTerm call.data.length =
      call.progress sent := progress
  rw [callRequest, chunkRequest, if_neg (by simp [leads, same])]
  simp only [state_eq]
  rfl

end Leading

/-- What a round does up to the RPC: nothing on a node that does not lead the call's term; else
it sends a chunk, or moves the follower's indices. -/
theorem callRequest_cases (progress : node.callProgress call = call.progress sent) :
    node.callRequest call = (node, none) ∨
    (sent < call.data.length ∧ node.callRequest call =
      (node.setProgress call.target (call.progress sent), some (node.nextChunk call sent))) ∨
    call.data.length ≤ sent ∧ node.callRequest call =
      ((node.setProgress call.target (call.progress sent)).markInstalled call.target
        call.snapIndex, none) := by
  by_cases idle : node.role ≠ .leader ∨ node.currentTerm ≠ call.term
  · left
    rw [callRequest, chunkRequest, if_pos idle]
  simp only [not_or, Decidable.not_not] at idle
  right
  rw [callRequest_eq idle.1 idle.2 progress]
  rcases lt_or_ge sent call.data.length with short | whole
  · exact .inl ⟨short, if_neg (not_le.mpr short)⟩
  · exact .inr ⟨whole, if_pos whole⟩

theorem onChunkReply_of_advances
    (found : node.snapshotSends.find? (·.1 = target) = some (target, state))
    (advances : node.chunkAdvances req resp = true) :
    node.onChunkReply target req resp =
      node.setProgress target { state with sent := resp.acceptedLen } := by
  simp only [chunkAdvances, Bool.and_eq_true, decide_eq_true_eq, Bool.not_eq_true'] at advances
  obtain ⟨⟨⟨leads, current⟩, accepted⟩, _⟩ := advances
  rw [onChunkReply, if_neg (by simp [leads]), if_neg (not_lt.mpr current), accepted]
  simp only [Bool.false_eq_true, if_false]
  rw [if_neg (by omega), if_neg (by omega), found]
  rfl

end Node

namespace Transfer

open Node

variable {σ : Type} {machine : Option (StateMachine σ)} {call : SnapshotCall}
  {transfer next : Transfer σ}

/-- A round that lets the loop go on found bytes missing, and has more acknowledged behind
it, whatever the follower is. -/
theorem round_some (progress : transfer.leader.callProgress call = call.progress sent)
    (on : transfer.round machine call = (next, some taken)) :
    sent < call.data.length ∧
      ∃ more, sent < more ∧ next.leader.callProgress call = call.progress more := by
  unfold round at on
  rcases callRequest_cases progress with idle | ⟨short, request⟩ | ⟨_, request⟩
  · rw [idle] at on
    cases on
  · rw [request] at on
    dsimp only at on
    split at on
    · rename_i advances
      refine ⟨short, ?_⟩
      have found := find_setProgress transfer.leader call.target (call.progress sent)
      rw [onChunkReply_of_advances found advances, Prod.mk.injEq] at on
      simp only [chunkAdvances, Bool.and_eq_true, decide_eq_true_eq] at advances
      rw [← on.1]
      exact ⟨_, advances.2, callProgress_of_find (find_setProgress _ _ _)⟩
    · cases on
  · rw [request] at on
    cases on

/-- The bound on the rounds is not reached: with more fuel the loop does the same, whatever the
follower is. -/
theorem sendChunks_fuel (enough : call.data.length < fuel) :
    transfer.sendChunks machine call (fuel + extra) budget =
      transfer.sendChunks machine call fuel budget := by
  have unused : ∀ fuel budget (transfer : Transfer σ) sent,
      transfer.leader.callProgress call = call.progress sent → 0 < fuel →
      call.data.length < fuel + sent →
        transfer.sendChunks machine call (fuel + extra) budget =
          transfer.sendChunks machine call fuel budget := by
    intro fuel
    induction fuel with
    | zero => intro _ _ _ _ positive; exact absurd positive (by decide)
    | succ _ ih =>
      intro budget transfer _ progress _ _
      rw [Nat.add_right_comm, sendChunks, sendChunks]
      cases on : transfer.round machine call with
      | mk next taken =>
        cases taken with
        | none => rfl
        | some taken =>
          dsimp only
          by_cases spent : budget ≤ taken
          · rw [if_pos spent, if_pos spent]
          · rw [if_neg spent, if_neg spent]
            obtain ⟨_, more, _, progressed⟩ := round_some progress on
            exact ih (budget - taken) next more progressed (by omega) (by omega)
  obtain ⟨sent, progress⟩ := transfer.leader.exists_callProgress
  exact unused fuel budget transfer sent progress (by omega) (by omega)

end Transfer

/-! ## One chunk at the follower -/

namespace SnapshotStaging

/-- The staging area continues at `offset`: it holds that much of the image, or the chunk
begins at zero. -/
def Continues (staging : SnapshotStaging) (identity : SnapshotId) (image : Bytes)
    (offset : Nat) : Prop :=
  offset = 0 ∨ staging.active = true ∧ staging.identity = identity ∧
    staging.buffer = image.take offset

theorem retag_of_identity {staging : SnapshotStaging}
    (same : staging.identity = req.identity) : staging.retag req = staging := by
  simp only [identity, InstallSnapshotChunkRequest.identity, SnapshotId.mk.injEq] at same
  have unchanged : staging.identityChanged req = false := by simp [identityChanged, same]
  rw [retag, unchanged]
  rfl

/-- A chunk that begins where the staged bytes end extends them, or completes the image. -/
theorem stageChunk_of_continues {staging : SnapshotStaging} {req : InstallSnapshotChunkRequest}
    {image : Bytes} {count : Nat} (continues : staging.Continues req.identity image req.chunkOffset)
    (within : req.chunkOffset ≤ image.length) (sized : req.totalSize = image.length)
    (bytes : req.data = (image.drop req.chunkOffset).take count) :
    (image.length ≤ req.chunkOffset + count → staging.stageChunk req = .full image) ∧
      (req.chunkOffset + count < image.length → ∃ next,
        staging.stageChunk req = .more next ∧ next.active = true ∧
          next.identity = req.identity ∧ next.buffer = image.take (req.chunkOffset + count)) := by
  -- The bytes in front of the chunk are the image's.
  have front : (staging.retag req).buffer.take req.chunkOffset = image.take req.chunkOffset ∧
      req.chunkOffset ≤ (staging.retag req).buffer.length ∧
      ((staging.retag req).active = true → (staging.retag req).identity = req.identity) := by
    have tagged : (staging.retag req).active = true →
        (staging.retag req).identity = req.identity := by
      unfold retag
      cases changed : staging.identityChanged req with
      | true => simp
      | false => exact fun active => identity_of_unchanged active changed
    rcases continues with zero | ⟨_, same, buffer_eq⟩
    · rw [zero]
      exact ⟨rfl, Nat.zero_le _, tagged⟩
    have reached : req.chunkOffset ≤ (image.take req.chunkOffset).length := by
      rw [length_take]
      omega
    rw [retag_of_identity same, buffer_eq]
    exact ⟨take_of_length_le (length_take_le _ _), reached, fun _ => same⟩
  obtain ⟨kept, reached, tagged⟩ := front
  have joined : (staging.retag req).buffer.take req.chunkOffset ++ req.data =
      image.take (req.chunkOffset + count) := by rw [kept, bytes, ← take_add]
  have length_eq : (image.take (req.chunkOffset + count)).length =
      min (req.chunkOffset + count) image.length := length_take
  rw [stageChunk]
  rw [if_neg (not_lt.mpr reached), joined]
  constructor
  · intro last
    rw [if_neg (by omega), take_of_length_le last]
  · intro _
    obtain ⟨active, identity_eq⟩ := activate_identity tagged
    rw [if_pos (by omega)]
    exact ⟨_, rfl, active, identity_eq, rfl⟩

end SnapshotStaging

namespace Node

variable {σ : Type} (machine : Option (StateMachine σ)) {node : Node σ}
  {req : InstallSnapshotChunkRequest}

/-- Behind a request of a term that is not below its own, a node has that term. -/
theorem observeTerm_currentTerm (current : node.currentTerm ≤ term) :
    (node.observeTerm term).currentTerm = term := by
  unfold observeTerm
  split
  · rfl
  · omega

section

variable (current : node.currentTerm ≤ req.term) (admitted : chunkAdmitted node.opts req = true)
include current admitted

theorem handleInstallSnapshotChunk_of_more {next : SnapshotStaging}
    (staged : node.staging.stageChunk req = .more next) :
    handleInstallSnapshotChunk machine node req =
      ⟨{ node.observeTerm req.term with staging := next },
        { term := req.term, acceptedLen := next.buffer.length }, none⟩ := by
  obtain ⟨_, staging_eq, opts_eq, _⟩ := observeTerm_frame node req.term
  rw [handleInstallSnapshotChunk, if_neg (not_lt.mpr current)]
  dsimp only
  rw [opts_eq, admitted, staging_eq, staged, observeTerm_currentTerm current]
  rfl

/-- A chunk that completes an image hands it to the installation. -/
theorem handleInstallSnapshotChunk_of_full
    (staged : node.staging.stageChunk req = .full image) :
    handleInstallSnapshotChunk machine node req =
      (node.observeTerm req.term).installImage machine req image := by
  obtain ⟨_, staging_eq, opts_eq, _⟩ := observeTerm_frame node req.term
  rw [handleInstallSnapshotChunk, if_neg (not_lt.mpr current)]
  dsimp only
  rw [opts_eq, admitted, staging_eq, staged]
  rfl

end

/-- The node has installed the image of a call; its state machine went from `state` through
`ApplySnapshot`. -/
structure HasInstalled (call : SnapshotCall) (before after : Node σ) : Prop where
  snapshotData : after.snapshotData = call.data
  lastSnapshotIndex : after.lastSnapshotIndex = call.snapIndex
  lastSnapshotTerm : after.lastSnapshotTerm = call.snapTerm
  lastApplied : after.lastApplied = call.snapIndex
  machineState : after.machineState = (before.applyImage machine call.data).1.machineState

theorem installImage_of_accepted {call : SnapshotCall} {before : Node σ}
    (same : node.machineState = before.machineState)
    (accepted : (before.applyImage machine call.data).2 = true)
    (index_eq : req.lastIncludedIndex = call.snapIndex)
    (term_eq : req.lastIncludedTerm = call.snapTerm) :
    (node.installImage machine req call.data).resp =
        { term := node.currentTerm, acceptedLen := call.data.length, complete := true } ∧
      HasInstalled machine call before (node.installImage machine req call.data).node := by
  have cleared : (node.clearStaging req.leaderId).machineState = before.machineState := same
  have taken : ((node.clearStaging req.leaderId).applyImage machine call.data).2 = true :=
    (applyImage_accepted machine cleared).trans accepted
  have state_eq : ((node.clearStaging req.leaderId).applyImage machine call.data).1.machineState =
      (before.applyImage machine call.data).1.machineState := by
    cases machine with
    | none => exact cleared
    | some _ => simp only [applyImage, cleared]
  unfold installImage
  dsimp only
  rw [taken, if_neg (by simp)]
  refine ⟨rfl, ?_⟩
  unfold commitInstalledSnapshot saveSnapshotData
  split
  · exact ⟨rfl, index_eq, term_eq, index_eq, state_eq⟩
  · exact ⟨rfl, index_eq, term_eq, index_eq, state_eq⟩

end Node

/-! ## The whole transfer -/

namespace Transfer

open Node

variable {σ : Type} {machine : Option (StateMachine σ)} {leader follower : Node σ} {target : Nat}

/-- What the transfer of a snapshot begins with: a leader that holds more than one chunk, and a
follower of no later term that admits the image and whose state machine accepts it. -/
structure Ready (machine : Option (StateMachine σ)) (leader follower : Node σ) (target peer : Nat) :
    Prop where
  leads : leader.role = .leader
  listed : leader.opts.peers.findIdx? (·.id = target) = some peer
  nextIndex : leader.nextIndex.length = leader.opts.peers.length
  matchIndex : leader.matchIndex.length = leader.opts.peers.length
  behind : leader.nextIndex.getD peer 0 ≤ leader.lastSnapshotIndex
  begun : leader.snapshotSends.find? (·.1 = target) = none
  positive : 1 ≤ leader.opts.snapshotChunkSize
  large : leader.opts.snapshotChunkSize < leader.snapshotData.length
  admitted : leader.snapshotData.length ≤ follower.opts.maxSnapshotSize
  current : follower.currentTerm ≤ leader.currentTerm
  accepted : (follower.applyImage machine leader.snapshotData).2 = true

/-- The follower while chunks are missing. -/
structure Receiving (leader follower : Node σ) (call : SnapshotCall) (sent : Nat)
    (node : Node σ) : Prop where
  opts : node.opts = follower.opts
  machineState : node.machineState = follower.machineState
  current : node.currentTerm ≤ leader.currentTerm
  staged : node.staging.Continues ⟨call.snapIndex, call.snapTerm, call.data.length⟩ call.data sent

/-- A transfer in which `sent` bytes are acknowledged. -/
structure Underway (machine : Option (StateMachine σ)) (leader follower : Node σ)
    (target sent : Nat) (transfer : Transfer σ) : Prop where
  unchanged : ∃ sends, transfer.leader = { leader with snapshotSends := sends }
  progress : transfer.leader.callProgress (leader.snapshotCall target) =
    (leader.snapshotCall target).progress sent
  counted : sent = min (transfer.requests * leader.opts.snapshotChunkSize)
    leader.snapshotData.length
  needed : (transfer.requests - 1) * leader.opts.snapshotChunkSize < leader.snapshotData.length
  receiving : sent < leader.snapshotData.length →
    Receiving leader follower (leader.snapshotCall target) sent transfer.follower
  installed : sent = leader.snapshotData.length →
    HasInstalled machine (leader.snapshotCall target) follower transfer.follower

/-- The number of chunks of an image. -/
def chunkCount (size chunk : Nat) : Nat :=
  (size + chunk - 1) / chunk

/-- A finished transfer. -/
structure Finished (machine : Option (StateMachine σ)) (leader follower : Node σ)
    (target peer : Nat) (transfer : Transfer σ) : Prop where
  requests : transfer.requests =
    chunkCount leader.snapshotData.length leader.opts.snapshotChunkSize
  installed : HasInstalled machine (leader.snapshotCall target) follower transfer.follower
  nextIndex : transfer.leader.nextIndex.getD peer 0 = leader.lastSnapshotIndex + 1
  matchIndex : transfer.leader.matchIndex.getD peer 0 = leader.lastSnapshotIndex
  snapshot : transfer.leader.lastSnapshotIndex = leader.lastSnapshotIndex

theorem requests_of_whole {size chunk requests : Nat} (positive : 1 ≤ chunk)
    (needed : (requests - 1) * chunk < size) (whole : size ≤ requests * chunk) :
    requests = chunkCount size chunk := by
  cases requests with
  | zero => omega
  | succ _ =>
    rw [Nat.add_sub_cancel] at needed
    rw [Nat.succ_mul] at whole
    refine (Nat.div_eq_of_lt_le ?_ ?_).symm
    · rw [Nat.succ_mul]
      omega
    · rw [Nat.succ_mul, Nat.succ_mul]
      omega

theorem underway_start (ready : Ready machine leader follower target peer) :
    Underway machine leader follower target 0 ⟨leader, follower, 0⟩ where
  unchanged := ⟨leader.snapshotSends, rfl⟩
  progress := by
    have none_recorded : leader.snapshotSends.find? (·.1 = (leader.snapshotCall target).target) =
        none := ready.begun
    rw [callProgress, sendProgress, none_recorded]
    rfl
  counted := by simp
  needed := by
    have large := ready.large
    dsimp only
    omega
  receiving _ := ⟨rfl, rfl, ready.current, .inl rfl⟩
  installed whole := by
    have large := ready.large
    omega

/-- The handler takes the next chunk: it extends what is staged, or installs the image. -/
theorem Receiving.handle {peer sent : Nat} (ready : Ready machine leader follower target peer)
    {node : Node σ} (receiving : Receiving leader follower (leader.snapshotCall target) sent node)
    (short : sent < leader.snapshotData.length) {sender : Node σ}
    (sender_opts : sender.opts = leader.opts) :
    let result := handleInstallSnapshotChunk machine node
      (sender.nextChunk (leader.snapshotCall target) sent)
    let reached := min (sent + leader.opts.snapshotChunkSize) leader.snapshotData.length
    result.resp.term = leader.currentTerm ∧ result.resp.rejected = false ∧
      result.resp.acceptedLen = reached ∧
      (reached < leader.snapshotData.length →
        Receiving leader follower (leader.snapshotCall target) reached result.node) ∧
      (reached = leader.snapshotData.length →
        HasInstalled machine (leader.snapshotCall target) follower result.node) := by
  generalize taken_def : min leader.opts.snapshotChunkSize (leader.snapshotData.length - sent) =
    taken
  have positive := ready.positive
  have chunk : (sender.nextChunk (leader.snapshotCall target) sent).data =
      (leader.snapshotData.drop sent).take taken := by
    rw [← taken_def, ← sender_opts]
    rfl
  have current : node.currentTerm ≤ (leader.snapshotCall target).term := receiving.current
  have admitted : chunkAdmitted node.opts (sender.nextChunk (leader.snapshotCall target) sent) =
      true :=
    sender.nextChunk_admitted short (sender_opts ▸ positive) (receiving.opts ▸ ready.admitted)
  obtain ⟨full, more⟩ := SnapshotStaging.stageChunk_of_continues receiving.staged
    (le_of_lt short) rfl chunk
  obtain ⟨_, _, opts_eq, _, state_eq⟩ := observeTerm_frame node (leader.snapshotCall target).term
  rcases lt_or_ge (sent + taken) leader.snapshotData.length with unfinished | last
  · obtain ⟨next, staged, active, identity_eq, buffer_eq⟩ := more unfinished
    rw [handleInstallSnapshotChunk_of_more machine current admitted staged]
    have reached : sent + taken = min (sent + leader.opts.snapshotChunkSize)
        leader.snapshotData.length := by omega
    have stored : next.buffer.length = sent + taken := by
      rw [buffer_eq, length_take]
      exact min_eq_left (le_of_lt unfinished)
    refine ⟨rfl, rfl, stored.trans reached, fun _ => ?_, fun _ => by omega⟩
    refine ⟨opts_eq.trans receiving.opts, state_eq.trans receiving.machineState, ?_, ?_⟩
    · exact le_of_eq (observeTerm_currentTerm current)
    · exact .inr ⟨active, identity_eq, reached ▸ buffer_eq⟩
  · rw [handleInstallSnapshotChunk_of_full machine current admitted (full last)]
    obtain ⟨answer, installed⟩ := @installImage_of_accepted _ machine _
      (sender.nextChunk (leader.snapshotCall target) sent) (leader.snapshotCall target) _
      (state_eq.trans receiving.machineState) ready.accepted rfl rfl
    refine ⟨(congrArg (·.term) answer).trans (observeTerm_currentTerm current),
      congrArg (·.rejected) answer, (congrArg (·.acceptedLen) answer).trans ?_,
      fun _ => by omega, fun _ => installed⟩
    change leader.snapshotData.length = _
    omega

section Rounds

variable {peer sent : Nat} {transfer : Transfer σ}

theorem Underway.sent_le (underway : Underway machine leader follower target sent transfer) :
    sent ≤ leader.snapshotData.length := by
  have counted := underway.counted
  omega

/-- A finished transfer stays as it is. -/
theorem Finished.serve (finished : Finished machine leader follower target peer transfer) :
    transfer.serve machine target peer = transfer := by
  rw [Transfer.serve, if_neg]
  rw [finished.nextIndex, finished.snapshot]
  omega

variable (ready : Ready machine leader follower target peer)
  (underway : Underway machine leader follower target sent transfer)
include ready underway

/-- The leader goes on leading the call's term. -/
theorem Underway.leading :
    transfer.leader.role = .leader ∧
      transfer.leader.currentTerm = (leader.snapshotCall target).term ∧
      transfer.leader.opts = leader.opts := by
  obtain ⟨_, leader_eq⟩ := underway.unchanged
  rw [leader_eq]
  exact ⟨ready.leads, rfl, rfl⟩

/-- A round that finds bytes missing sends one chunk, and it is acknowledged. -/
theorem Underway.round_of_lt (short : sent < leader.snapshotData.length) :
    ∃ next taken, transfer.round machine (leader.snapshotCall target) = (next, some taken) ∧
      Underway machine leader follower target
        (min (sent + leader.opts.snapshotChunkSize) leader.snapshotData.length) next := by
  obtain ⟨leads, same, sender_opts⟩ := underway.leading ready
  have positive := ready.positive
  obtain ⟨resp_term, unrejected, accepted, receiving, installed⟩ :=
    (underway.receiving short).handle ready short sender_opts
  have request := (callRequest_eq leads same underway.progress).trans (if_neg (not_le.mpr short))
  generalize reached_def :
    min (sent + leader.opts.snapshotChunkSize) leader.snapshotData.length = reached at *
  generalize req_def : transfer.leader.nextChunk (leader.snapshotCall target) sent = req at *
  generalize result_def : handleInstallSnapshotChunk machine transfer.follower req = result at *
  generalize sending_def :
    transfer.leader.setProgress (leader.snapshotCall target).target
      ((leader.snapshotCall target).progress sent) = sending at *
  have advances : sending.chunkAdvances req result.resp = true := by
    have further : sent < reached := by omega
    simp [chunkAdvances, ← sending_def, ← req_def, setProgress, nextChunk, leads, same, resp_term,
      snapshotCall, unrejected, accepted, further]
  have replied : sending.onChunkReply target req result.resp =
      sending.setProgress target ((leader.snapshotCall target).progress reached) := by
    rw [onChunkReply_of_advances (sending_def ▸ find_setProgress _ _ _) advances, accepted]
    rfl
  refine ⟨⟨sending.setProgress target ((leader.snapshotCall target).progress reached),
    result.node, transfer.requests + 1⟩, req.data.length, ?_, ?_⟩
  · rw [round, request]
    dsimp only
    rw [result_def, advances]
    exact congrArg (fun node => ((⟨node, result.node, transfer.requests + 1⟩ : Transfer σ), some _))
      replied
  have counted := underway.counted
  obtain ⟨_, leader_eq⟩ := underway.unchanged
  refine ⟨?_, callProgress_of_find (find_setProgress _ _ _), ?_, ?_, receiving, installed⟩
  · rw [← sending_def, leader_eq]
    exact ⟨_, rfl⟩
  · rw [Nat.succ_mul]
    omega
  · rw [Nat.add_sub_cancel]
    omega

omit underway in
/-- A round that finds everything acknowledged finishes the transfer. -/
theorem Underway.round_of_whole
    (underway : Underway machine leader follower target leader.snapshotData.length transfer) :
    ∃ next, transfer.round machine (leader.snapshotCall target) = (next, none) ∧
      Finished machine leader follower target peer next := by
  obtain ⟨_, leader_eq⟩ := underway.unchanged
  obtain ⟨leads, same, _⟩ := underway.leading ready
  have request : transfer.leader.callRequest (leader.snapshotCall target) =
      ((transfer.leader.setProgress target _).markInstalled target leader.lastSnapshotIndex,
        none) :=
    (callRequest_eq leads same underway.progress).trans (if_pos (le_refl _))
  refine ⟨⟨_, transfer.follower, transfer.requests⟩, by rw [round, request], ?_⟩
  have within : peer < leader.opts.peers.length := (findIdx?_eq_some_iff_getElem.mp ready.listed).1
  have requests_eq := requests_of_whole ready.positive underway.needed (by
    have counted := underway.counted
    omega)
  constructor
  case requests => exact requests_eq
  case installed => exact underway.installed rfl
  all_goals simp only [markInstalled, setProgress, leader_eq, ready.listed]
  · simp [within, ready.nextIndex]
  · simp [within, ready.matchIndex]

/-- The chunk loop finishes the transfer or keeps it underway. -/
theorem Underway.sendChunks (fuel budget : Nat) :
    Finished machine leader follower target peer
        (transfer.sendChunks machine (leader.snapshotCall target) fuel budget) ∨
      ∃ more, sent ≤ more ∧ (0 < fuel → sent < more) ∧
        Underway machine leader follower target more
          (transfer.sendChunks machine (leader.snapshotCall target) fuel budget) := by
  induction fuel generalizing sent transfer budget with
  | zero => exact .inr ⟨sent, le_refl _, fun positive => absurd positive (by decide), underway⟩
  | succ _ ih =>
    have positive := ready.positive
    rcases lt_or_ge sent leader.snapshotData.length with short | whole
    · obtain ⟨_, taken, sent_one, further⟩ := underway.round_of_lt ready short
      rw [Transfer.sendChunks, sent_one]
      dsimp only
      by_cases spent : budget ≤ taken
      · rw [if_pos spent]
        exact .inr ⟨_, by omega, fun _ => by omega, further⟩
      · rw [if_neg spent]
        rcases ih further (budget - taken) with finished | ⟨more, _, _, beyond⟩
        · exact .inl finished
        · exact .inr ⟨more, by omega, fun _ => by omega, beyond⟩
    · have sent_eq : sent = leader.snapshotData.length := le_antisymm underway.sent_le whole
      subst sent_eq
      obtain ⟨_, last, finished⟩ := underway.round_of_whole ready
      rw [Transfer.sendChunks, last]
      exact .inl finished

/-- While the transfer is underway, `ReplicateLog` goes on with the chunks. -/
theorem Underway.serve :
    transfer.serve machine target peer = transfer.sendChunks machine
      (leader.snapshotCall target) (leader.snapshotData.length + 1) (sendBudget leader.opts) := by
  obtain ⟨_, leader_eq⟩ := underway.unchanged
  have nonempty := ne_nil_of_length_pos (Nat.zero_lt_of_lt ready.large)
  have chunked : transfer.leader.snapshotRequest = none := by
    rw [snapshotRequest, leader_eq, if_pos (.inr (.inr ready.large))]
  have call_eq : transfer.leader.snapshotCall target = leader.snapshotCall target := by
    rw [leader_eq]
    rfl
  rw [Transfer.serve, if_pos (by rw [leader_eq]; exact ready.behind), sendSnapshotToFollower]
  rw [if_neg (by simp [leader_eq, ready.leads, nonempty]), chunked, call_eq, leader_eq]

end Rounds

/-- Without loss the transfer finishes: from some number of calls on, the follower has installed
the image, its indices are moved past it, and one request was sent for each chunk. -/
theorem Ready.finishes (ready : Ready machine leader follower target peer) :
    ∃ calls, ∀ more, Finished machine leader follower target peer
      ((serve machine target peer)^[calls + more] ⟨leader, follower, 0⟩) := by
  -- The bytes that are not acknowledged yet become fewer with every call.
  have ends : ∀ missing sent (transfer : Transfer σ),
      Underway machine leader follower target sent transfer →
      leader.snapshotData.length - sent < missing → ∃ calls, ∀ more,
        Finished machine leader follower target peer
          ((serve machine target peer)^[calls + more + 1] transfer) := by
    intro missing
    induction missing with
    | zero => exact fun _ _ _ => nofun
    | succ _ ih =>
      intro _ _ underway _
      simp only [Function.iterate_succ_apply, underway.serve ready]
      rcases underway.sendChunks ready (leader.snapshotData.length + 1)
        (sendBudget leader.opts) with finished | ⟨beyond, _, _, also⟩
      · exact ⟨0, fun _ => by rwa [Function.iterate_fixed finished.serve]⟩
      · have bound := also.sent_le
        obtain ⟨calls, finishes⟩ := ih beyond _ also (by omega)
        exact ⟨calls + 1, fun more => Nat.add_right_comm calls more 1 ▸ finishes more⟩
  obtain ⟨calls, finishes⟩ := ends _ 0 _ (underway_start ready) (Nat.lt_succ_self _)
  exact ⟨calls + 1, fun more => Nat.add_right_comm calls more 1 ▸ finishes more⟩

end Transfer

/-! ## With loss and restarts -/

/-- A leader and its followers while the replication thread sends chunks. `installed` is not
part of the program: it records each `CommitInstalledSnapshot` that a chunk led to, with the
follower, the index and the term. -/
structure Sending (σ : Type) where
  leader : Node σ
  followers : Nat → Node σ
  call : Option SnapshotCall
  pending : Option InstallSnapshotChunkRequest
  installed : List (Nat × Nat × Nat)

/-- What can happen next. -/
inductive SendingEvent (σ : Type) where
  /-- Another section of the leader, or its restart. -/
  | leader (node : Node σ)
  /-- Anything that happens to a follower besides, restarts included. -/
  | follower (id : Nat) (node : Node σ)
  /-- `SendSnapshotToFollower` begins with a snapshot of more than one chunk. -/
  | begin (target : Nat)
  /-- A round of the chunk loop, up to the RPC. -/
  | round
  /-- The request reaches the follower, and the answer reaches the leader or is lost. -/
  | deliver (answered : Bool)
  /-- The request is lost. -/
  | dropRequest
  /-- The loop ends because its budget is spent. -/
  | stop

namespace Sending

open Node

variable {σ : Type} (machine : Option (StateMachine σ))

/-- What a failed RPC answers. -/
def failedChunk : InstallSnapshotChunkResponse := { rejected := true }

/-- The leader gets the answer to the pending request. -/
def reply (state : Sending σ) (call : SnapshotCall) (req : InstallSnapshotChunkRequest)
    (resp : InstallSnapshotChunkResponse) : Sending σ :=
  { state with
    leader := state.leader.onChunkReply call.target req resp
    call := if state.leader.chunkAdvances req resp then some call else none
    pending := none }

/-- The follower handles the pending request. -/
def handle (state : Sending σ) (target : Nat) (req : InstallSnapshotChunkRequest) : Sending σ :=
  { state with
    followers := Function.update state.followers target
      (handleInstallSnapshotChunk machine (state.followers target) req).node
    installed :=
      if installs machine (state.followers target) (.chunk req) then
        (target, req.lastIncludedIndex, req.lastIncludedTerm) :: state.installed
      else state.installed }

/-- One event; one that is not possible changes nothing. Only the replication thread touches
`snapshot_sends_`, so another section leaves it alone, or is part of the same thread and
erases entries between two calls. -/
def step (state : Sending σ) : SendingEvent σ → Sending σ
  | .leader node =>
      if node.snapshotSends = state.leader.snapshotSends ∨
          state.call = none ∧ ∀ entry ∈ node.snapshotSends, entry ∈ state.leader.snapshotSends then
        { state with leader := node }
      else state
  | .follower id node => { state with followers := Function.update state.followers id node }
  | .begin target =>
      if state.call = none ∧ state.leader.role = .leader ∧
          state.leader.opts.snapshotChunkSize < state.leader.snapshotData.length then
        { state with call := some (state.leader.snapshotCall target) }
      else state
  | .round =>
      match state.call, state.pending with
      | some call, none =>
          let sending := state.leader.callRequest call
          { state with
            leader := sending.1
            pending := sending.2
            call := if sending.2.isSome then some call else none }
      | _, _ => state
  | .deliver answered =>
      match state.call, state.pending with
      | some call, some req =>
          (state.handle machine call.target req).reply call req
            (if answered then
              (handleInstallSnapshotChunk machine (state.followers call.target) req).resp
            else failedChunk)
      | _, _ => state
  | .dropRequest =>
      match state.call, state.pending with
      | some call, some req => state.reply call req failedChunk
      | _, _ => state
  | .stop => if state.pending = none then { state with call := none } else state

/-- A leader that has recorded nothing yet. -/
def start (leader : Node σ) (followers : Nat → Node σ) : Sending σ where
  leader := { leader with snapshotSends := [] }
  followers := followers
  call := none
  pending := none
  installed := []

/-- What holds between the events. A record that acknowledges a whole image is backed by an
installation. -/
structure Sound (state : Sending σ) : Prop where
  backed : ∀ target progress, (target, progress) ∈ state.leader.snapshotSends →
    progress.totalSize ≤ progress.sent →
      (target, progress.lastIncludedIndex, progress.lastIncludedTerm) ∈ state.installed
  nonempty : ∀ call, state.call = some call → 0 < call.data.length
  awaited : ∀ req, state.pending = some req → ∃ call, state.call = some call ∧
    req.lastIncludedIndex = call.snapIndex ∧ req.lastIncludedTerm = call.snapTerm ∧
    req.totalSize = call.data.length ∧
    state.leader.snapshotSends.find? (·.1 = call.target) =
      some (call.target, call.progress req.chunkOffset)

end Sending

theorem SnapshotStaging.length_lt_of_more {staging next : SnapshotStaging}
    (staged : staging.stageChunk req = .more next) :
    next.buffer.length < req.totalSize := by
  unfold stageChunk at staged
  dsimp only at staged
  split at staged
  · cases staged
  split at staged
  · rename_i short
    rw [Outcome.more.injEq] at staged
    rw [← staged]
    exact short
  · cases staged

namespace Node

variable {σ : Type}

/-- An answer that acknowledges the whole size without a refusal comes from an installation. -/
theorem installs_of_acceptedLen {machine : Option (StateMachine σ)}
    (accepted : (handleInstallSnapshotChunk machine node req).resp.rejected = false)
    (whole : req.totalSize ≤ (handleInstallSnapshotChunk machine node req).resp.acceptedLen) :
    installs machine node (.chunk req) = true := by
  rcases handleInstallSnapshotChunk_cases machine node req with
    ⟨_, same⟩ | ⟨current, ⟨_, same⟩ |
      ⟨admitted, ⟨_, same⟩ | ⟨_, staged, same⟩ | ⟨image, staged, same⟩⟩⟩
  · rw [same] at accepted
    cases accepted
  · rw [same] at accepted
    cases accepted
  · rw [same] at accepted
    cases accepted
  · rw [same] at whole
    exact absurd (SnapshotStaging.length_lt_of_more staged) (not_lt.mpr whole)
  · obtain ⟨_, _, _, _, state_eq⟩ := observeTerm_frame node req.term
    have same_state : ((node.observeTerm req.term).clearStaging req.leaderId).machineState =
        node.machineState := state_eq
    rw [same, installImage, applyImage_accepted machine same_state] at accepted
    cases taken : (node.applyImage machine image).2 with
    | false =>
      rw [taken] at accepted
      cases accepted
    | true => simp [installs, current, admitted, staged, taken]

end Node

namespace Sending

open Node Runs

variable {σ : Type} {machine : Option (StateMachine σ)} {state : Sending σ}

theorem sound_start {leader : Node σ} {followers : Nat → Node σ} :
    Sound (start leader followers) where
  backed _ _ := nofun
  nonempty _ := nofun
  awaited _ := nofun

/-- A leader that gave up records and waits for nothing. -/
theorem Sound.of_subset (sound : Sound state) {later : Sending σ}
    (subset : ∀ entry ∈ later.leader.snapshotSends, entry ∈ state.leader.snapshotSends)
    (more : ∀ entry ∈ state.installed, entry ∈ later.installed)
    (call : ∀ call, later.call = some call → 0 < call.data.length)
    (idle : later.pending = none) : Sound later where
  backed target progress member acknowledged :=
    more _ (sound.backed target progress (subset _ member) acknowledged)
  nonempty := call
  awaited req pending := by
    rw [idle] at pending
    cases pending

theorem Sound.pending_of_idle (sound : Sound state) (idle : state.call = none) :
    state.pending = none := by
  by_contra waiting
  obtain ⟨req, pending⟩ := ne_none_iff_exists'.mp waiting
  obtain ⟨_, running, _⟩ := sound.awaited req pending
  exact nomatch idle.symm.trans running

/-- Answers that are not recorded leave the records alone or erase some. -/
theorem snapshotSends_onChunkReply {node : Node σ} (stops : node.chunkAdvances req resp = false) :
    ∀ entry ∈ (node.onChunkReply target req resp).snapshotSends, entry ∈ node.snapshotSends := by
  unfold onChunkReply
  intro _ member
  split at member
  · exact member
  rename_i leads
  split at member
  · exact member
  rename_i current
  split at member
  · exact mem_of_mem_filter member
  rename_i accepted
  split at member
  · exact mem_of_mem_filter member
  split at member
  · exact member
  · have same : resp.term ≤ node.currentTerm := Nat.le_of_not_lt current
    have unrejected : resp.rejected = false := Bool.eq_false_iff.mpr accepted
    have reached : req.chunkOffset < resp.acceptedLen := by omega
    simp [chunkAdvances, leads, same, unrejected, reached] at stops

/-- An answer keeps the records backed, if one of the whole size comes from an installation. -/
theorem Sound.reply (sound : Sound state) {call : SnapshotCall}
    {req : InstallSnapshotChunkRequest} (running : state.call = some call)
    (pending : state.pending = some req) {resp : InstallSnapshotChunkResponse}
    {later : Sending σ} (later_leader : later.leader = state.leader)
    (more : ∀ entry ∈ state.installed, entry ∈ later.installed)
    (backed : resp.rejected = false → req.totalSize ≤ resp.acceptedLen →
      (call.target, req.lastIncludedIndex, req.lastIncludedTerm) ∈ later.installed) :
    Sound (later.reply call req resp) := by
  cases advances : state.leader.chunkAdvances req resp with
  | false =>
    refine sound.of_subset ?_ more ?_ rfl
    · rw [Sending.reply, later_leader]
      exact snapshotSends_onChunkReply advances
    · intro _ still
      rw [Sending.reply, later_leader, advances] at still
      cases still
  | true =>
    obtain ⟨_, own_eq, index_eq, term_eq, size_eq, found⟩ := sound.awaited req pending
    rw [running, some.injEq] at own_eq
    subst own_eq
    have recorded := onChunkReply_of_advances found advances
    simp only [chunkAdvances, Bool.and_eq_true, Bool.not_eq_true'] at advances
    refine ⟨?_, ?_, fun _ => nofun⟩
    · intro target progress member whole
      rw [Sending.reply, later_leader, recorded] at member
      rcases mem_cons.mp member with fresh | old
      · obtain ⟨rfl, rfl⟩ := fresh
        have backed := backed advances.1.2 (size_eq ▸ whole)
        rw [index_eq, term_eq] at backed
        exact backed
      · exact more _ (sound.backed target progress (mem_of_mem_filter old) whole)
    · intro other still
      have same : other = call := by
        rw [Sending.reply] at still
        split at still
        · exact (some.inj still).symm
        · cases still
      exact same ▸ sound.nonempty call running

/-- A round of the chunk loop keeps the records backed. -/
theorem Sound.round (sound : Sound state) : Sound (state.step machine .round) := by
  rw [Sending.step]
  split
  · rename_i call running idle
    obtain ⟨sent, progress⟩ := state.leader.exists_callProgress
    rcases callRequest_cases progress with request | ⟨short, request⟩ | ⟨_, request⟩
    · rw [request]
      exact sound.of_subset (fun _ member => member) (fun _ member => member) nofun rfl
    · rw [request]
      refine ⟨?_, ?_, ?_⟩
      · intro target record member acknowledged
        rcases mem_cons.mp member with fresh | old
        · rw [Prod.mk.injEq] at fresh
          rw [fresh.2] at acknowledged
          exact absurd acknowledged (not_le.mpr short)
        · exact sound.backed target record (mem_of_mem_filter old) acknowledged
      · intro _ still
        exact some.inj still ▸ sound.nonempty call running
      · intro _ sent_now
        rw [← some.inj sent_now]
        exact ⟨call, rfl, rfl, rfl, rfl, find_setProgress _ _ _⟩
    · rw [request]
      refine sound.of_subset ?_ (fun _ member => member) nofun rfl
      intro entry member
      have kept : entry ∈ (state.leader.setProgress call.target
          (call.progress sent)).snapshotSends.filter (·.1 ≠ call.target) := by
        unfold markInstalled at member
        split at member
        · exact member
        · exact member
      obtain ⟨inside, other⟩ := mem_filter.mp kept
      rcases mem_cons.mp inside with fresh | old
      · rw [fresh] at other
        simp at other
      · exact mem_of_mem_filter old
  · exact sound

theorem Sound.step (sound : Sound state) (event : SendingEvent σ) :
    Sound (state.step machine event) := by
  cases event with
  | leader _ =>
    rw [Sending.step]
    split
    · rename_i allowed
      rcases allowed with same | ⟨idle, subset⟩
      · exact ⟨same ▸ sound.backed, sound.nonempty, same ▸ sound.awaited⟩
      exact sound.of_subset subset (fun _ member => member) sound.nonempty
        (sound.pending_of_idle idle)
    · exact sound
  | follower _ _ => exact ⟨sound.backed, sound.nonempty, sound.awaited⟩
  | begin _ =>
    rw [Sending.step]
    split
    · rename_i allowed
      obtain ⟨idle, _, large⟩ := allowed
      refine sound.of_subset (fun _ member => member) (fun _ member => member) ?_
        (sound.pending_of_idle idle)
      intro _ begun
      rw [← some.inj begun]
      exact Nat.zero_lt_of_lt large
    · exact sound
  | round => exact sound.round
  | deliver answered =>
    rw [Sending.step]
    split
    · rename_i call req running pending
      have more : ∀ entry ∈ state.installed,
          entry ∈ (state.handle machine call.target req).installed := by
        intro _ member
        unfold handle
        split
        · exact mem_cons_of_mem _ member
        · exact member
      refine sound.reply running pending rfl more ?_
      cases answered with
      | false => exact nofun
      | true =>
        intro accepted whole
        have installed := installs_of_acceptedLen accepted whole
        rw [handle, if_pos installed]
        exact mem_cons_self
    · exact sound
  | dropRequest =>
    rw [Sending.step]
    split
    · rename_i req running pending
      exact sound.reply running pending rfl (fun _ member => member) nofun
    · exact sound
  | stop =>
    rw [Sending.step]
    split
    · rename_i idle
      exact sound.of_subset (fun _ member => member) (fun _ member => member) nofun idle
    · exact sound

theorem sound_run (leader : Node σ) (followers : Nat → Node σ) (events : List (SendingEvent σ)) :
    Sound (run (Sending.step machine) (start leader followers) events) :=
  have anything : ∀ event ∈ events, True := fun _ _ => trivial
  (meets_of_forall anything).invariant sound_start fun _ event sound _ => sound.step event

/-- An answer never moves a follower's indices. -/
theorem indices_onChunkReply {node : Node σ} :
    (node.onChunkReply target req resp).matchIndex = node.matchIndex ∧
      (node.onChunkReply target req resp).nextIndex = node.nextIndex := by
  unfold onChunkReply
  repeat' split
  all_goals exact ⟨rfl, rfl⟩

/-- An event of the chunk path that leaves every follower's indices alone. -/
def LeavesIndices (state later : Sending σ) : Prop :=
  later.leader.matchIndex = state.leader.matchIndex ∧
    later.leader.nextIndex = state.leader.nextIndex

/-- The event counts the target of the running call as holding the call's snapshot, and the
target has installed it before. -/
def CountsInstalled (state later : Sending σ) : Prop :=
  ∃ call peer, state.call = some call ∧
    state.leader.opts.peers.findIdx? (·.id = call.target) = some peer ∧
    later.leader.matchIndex = state.leader.matchIndex.set peer call.snapIndex ∧
    later.leader.nextIndex = state.leader.nextIndex.set peer (call.snapIndex + 1) ∧
    (call.target, call.snapIndex, call.snapTerm) ∈ state.installed

/-- A round leaves the indices alone, or counts a follower that has installed the snapshot. -/
theorem Sound.counts_round (sound : Sound state) :
    LeavesIndices state (state.step machine .round) ∨
      CountsInstalled state (state.step machine .round) := by
  rw [Sending.step]
  split
  · rename_i call running idle
    obtain ⟨sent, progress⟩ := state.leader.exists_callProgress
    rcases callRequest_cases progress with request | ⟨_, request⟩ | ⟨whole, request⟩
    · rw [request]
      exact .inl ⟨rfl, rfl⟩
    · rw [request]
      exact .inl ⟨rfl, rfl⟩
    rw [request]
    have same_peers : (state.leader.setProgress call.target (call.progress sent)).opts.peers =
        state.leader.opts.peers := rfl
    unfold markInstalled
    rw [same_peers]
    cases found : state.leader.opts.peers.findIdx? (·.id = call.target) with
    | none => exact .inl ⟨rfl, rfl⟩
    | some peer =>
      refine .inr ⟨call, peer, running, found, rfl, rfl, ?_⟩
      have recorded := mem_of_callProgress progress
        (lt_of_lt_of_le (sound.nonempty call running) whole)
      exact sound.backed call.target _ recorded whole
  · exact .inl ⟨rfl, rfl⟩

/-- Any other event of the chunk path leaves the indices alone. -/
theorem Sound.counts (sound : Sound state) (chunkPath : ∀ node, event ≠ .leader node) :
    LeavesIndices state (state.step machine event) ∨
      CountsInstalled state (state.step machine event) := by
  cases event with
  | leader node => exact absurd rfl (chunkPath node)
  | follower _ _ => exact .inl ⟨rfl, rfl⟩
  | begin _ | stop =>
    rw [Sending.step]
    split
    all_goals exact .inl ⟨rfl, rfl⟩
  | round => exact sound.counts_round
  | deliver _ | dropRequest =>
    rw [Sending.step]
    split
    · exact .inl indices_onChunkReply
    · exact .inl ⟨rfl, rfl⟩

end Sending

/-- A snapshot of several chunks is transferred in as many requests as it has chunks when
nothing is lost, and whatever is lost, a follower is counted only after it has installed the
snapshot. -/
theorem snapshot_transfer {σ : Type} (machine : Option (StateMachine σ)) :
    (∀ (leader follower : Node σ) (target peer : Nat),
      Transfer.Ready machine leader follower target peer →
        ∃ calls, ∀ more, Transfer.Finished machine leader follower target peer
          ((Transfer.serve machine target peer)^[calls + more] ⟨leader, follower, 0⟩)) ∧
    ∀ (leader : Node σ) (followers : Nat → Node σ) (events : List (SendingEvent σ))
      (event : SendingEvent σ), (∀ node, event ≠ .leader node) →
        let reached := Runs.run (Sending.step machine) (Sending.start leader followers) events
        Sending.LeavesIndices reached (reached.step machine event) ∨
          Sending.CountsInstalled reached (reached.step machine event) :=
  ⟨fun _ _ _ _ ready => ready.finishes,
    fun leader followers events _ chunkPath =>
      (Sending.sound_run leader followers events).counts chunkPath⟩

/-- A leader with a snapshot of three bytes, sent two bytes at a time. -/
def threeByteLeader : Node Bytes where
  opts := { nodeId := 1, peers := [{ id := 2 }], snapshotChunkSize := 2 }
  currentTerm := 1
  role := .leader
  log := .single { index := 5, term := 1, type := .noOp }
  commitIndex := 5
  lastApplied := 5
  lastSnapshotIndex := 5
  lastSnapshotTerm := 1
  snapshotData := [7, 8, 9]
  machineState := [7, 8, 9]

/-- Its follower, which holds nothing. -/
def emptyFollower : Node Bytes where
  opts := { nodeId := 2, peers := [{ id := 1 }] }
  machineState := []

theorem sendChunks_fuel_threeBytes :
    Transfer.sendChunks none (threeByteLeader.snapshotCall 2) (4 + 6) 9
        ⟨threeByteLeader, emptyFollower, 0⟩ =
      Transfer.sendChunks none (threeByteLeader.snapshotCall 2) 4 9
        ⟨threeByteLeader, emptyFollower, 0⟩ := Transfer.sendChunks_fuel (by decide)

/-- Three bytes take two requests of two bytes, and a follower counted at the end of a run with
a lost answer has installed them. -/
theorem snapshot_transfer_threeBytes :
    (∃ calls, ∀ more, Transfer.Finished (some imageMachine) threeByteLeader emptyFollower 2 0
      ((Transfer.serve (some imageMachine) 2 0)^[calls + more]
        ⟨threeByteLeader, emptyFollower, 0⟩)) ∧
    let reached := Runs.run (Sending.step (some imageMachine))
      (Sending.start threeByteLeader fun _ => emptyFollower)
      [.begin 2, .round, .deliver false, .begin 2, .round, .deliver true, .round, .deliver true]
    Sending.LeavesIndices reached (reached.step (some imageMachine) .round) ∨
      Sending.CountsInstalled reached (reached.step (some imageMachine) .round) := by
  have transfer := snapshot_transfer (some imageMachine)
  refine ⟨transfer.1 threeByteLeader emptyFollower 2 0 ?_, ?_⟩
  · constructor
    all_goals decide
  · exact transfer.2 threeByteLeader (fun _ => emptyFollower) _ .round nofun

end LightKV.Raft
