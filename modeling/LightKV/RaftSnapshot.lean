import LightKV.RaftReplication
import LightKV.Runs

/-!
# Snapshots

Taking a snapshot, sending it, and the two ways a follower installs one. Both install
paths end in `CommitInstalledSnapshot`, which replaces the whole log by one base entry.
The single message is ignored when the follower has already applied its index; the
chunked path has no such test.

A chunked snapshot is staged. `stageChunk` is the part of `HandleInstallSnapshotChunk`
that touches the staging buffer; the handler is built around it and also reports the
image it passes to `ApplySnapshot`, which the source does not return.
-/

namespace LightKV.Raft

open List SnapshotStaging

namespace Node

variable {σ : Type} (machine : Option (StateMachine σ)) (node : Node σ)

/-! ## Taking a snapshot -/

/-- `CompactLog`: only the entry at `snapIndex` stays. -/
def compactLog (snapIndex : Nat) : Node σ :=
  if snapIndex = 0 then node
  else
    match node.log.entryAt snapIndex with
    | none => node
    | some entry => { node with log := .single entry }

/-- `TriggerSnapshot`. `saved` says whether the snapshot file could be written; if
not, the old baseline is restored and the log is left alone. -/
def triggerSnapshot (saved : Bool) (node : Node σ) : Node σ × Bool :=
  if node.lastApplied = 0 then (node, false)
  else if node.lastApplied ≤ node.lastSnapshotIndex then (node, true)
  else
    let data := machine.elim [] fun machine => machine.takeSnapshot node.machineState
    if data = [] then (node, false)
    else if saved = false then (node, false)
    else
      let taken := saveSnapshotData
        { node with
          lastSnapshotIndex := node.lastApplied
          lastSnapshotTerm := (node.log.getLogEntry node.lastApplied).term
          snapshotData := data }
      ((taken.compactLog node.lastApplied).savePersistentState, true)

/-- A node that takes `data` for the snapshot of what it has applied. -/
def withSnapshot (data : Bytes) : Node σ :=
  { node with
    lastSnapshotIndex := node.lastApplied
    lastSnapshotTerm := (node.log.getLogEntry node.lastApplied).term
    snapshotData := data }

/-- What `TriggerSnapshot` can do: nothing, or it takes a snapshot and cuts the log. -/
theorem triggerSnapshot_cases (saved : Bool) (node : Node σ) :
    let data := machine.elim [] fun machine => machine.takeSnapshot node.machineState
    ((node.lastApplied ≤ node.lastSnapshotIndex ∨ data = [] ∨ saved = false) ∧
      (node.triggerSnapshot machine saved).1 = node) ∨
    ¬ (node.lastApplied ≤ node.lastSnapshotIndex ∨ data = [] ∨ saved = false) ∧
      (node.triggerSnapshot machine saved).1 =
        ((node.withSnapshot data).saveSnapshotData.compactLog
          node.lastApplied).savePersistentState := by
  unfold triggerSnapshot
  generalize (machine.elim [] fun machine => machine.takeSnapshot node.machineState) = data
  by_cases idle : node.lastApplied = 0
  · rw [if_pos idle]
    exact .inl ⟨.inl (idle ▸ Nat.zero_le _), rfl⟩
  rw [if_neg idle]
  by_cases old : node.lastApplied ≤ node.lastSnapshotIndex
  · rw [if_pos old]
    exact .inl ⟨.inl old, rfl⟩
  rw [if_neg old]
  by_cases empty : data = []
  · rw [if_pos empty]
    exact .inl ⟨.inr (.inl empty), rfl⟩
  · rw [if_neg empty]
    cases saved with
    | false => exact .inl ⟨.inr (.inr rfl), rfl⟩
    | true => exact .inr ⟨by simp [old, empty], rfl⟩

/-- `CheckAndCompactLog`. -/
def checkAndCompactLog (saved : Bool) (node : Node σ) : Node σ :=
  if node.role ≠ .leader then node
  else if node.snapshotThreshold < node.log.entries.length then
    (triggerSnapshot machine saved node).1
  else node

/-! ## Sending a snapshot -/

/-- The first peer entry of a follower gets its indices moved past the snapshot. -/
def markInstalled (follower snapIndex : Nat) : Node σ :=
  let sends := node.snapshotSends.filter (·.1 ≠ follower)
  match node.opts.peers.findIdx? (·.id = follower) with
  | none => { node with snapshotSends := sends }
  | some peer =>
      { node with
        snapshotSends := sends
        nextIndex := node.nextIndex.set peer (snapIndex + 1)
        matchIndex := node.matchIndex.set peer snapIndex }

/-- The single message of `SendSnapshotToFollower`; `none` if there is nothing to send
or the image needs chunks. -/
def snapshotRequest : Option InstallSnapshotRequest :=
  if node.role ≠ .leader ∨ node.snapshotData = [] ∨
      node.opts.snapshotChunkSize < node.snapshotData.length then none
  else
    some
      { term := node.currentTerm
        leaderId := node.opts.nodeId
        lastIncludedIndex := node.lastSnapshotIndex
        lastIncludedTerm := node.lastSnapshotTerm
        data := node.snapshotData }

/-- What `SendSnapshotToFollower` does with the answer to the single message. -/
def onSnapshotReply (follower : Nat) (req : InstallSnapshotRequest)
    (resp : InstallSnapshotResponse) : Node σ :=
  if node.role ≠ .leader then node
  else if node.currentTerm < resp.term then node.becomeFollower resp.term
  else if resp.success = false then node
  else node.markInstalled follower req.lastIncludedIndex

/-- The progress towards `follower` for the image `(snapIndex, snapTerm, total)`;
progress on another image is forgotten. -/
def sendProgress (follower snapIndex snapTerm total : Nat) : SnapshotSendState :=
  let fresh : SnapshotSendState :=
    { lastIncludedIndex := snapIndex, lastIncludedTerm := snapTerm, totalSize := total }
  match node.snapshotSends.find? (·.1 = follower) with
  | none => fresh
  | some (_, state) =>
      if state.lastIncludedIndex ≠ snapIndex ∨ state.lastIncludedTerm ≠ snapTerm ∨
          state.totalSize ≠ total then fresh
      else state

/-- Record the progress towards one follower. -/
def setProgress (follower : Nat) (state : SnapshotSendState) : Node σ :=
  { node with
    snapshotSends := (follower, state) :: node.snapshotSends.filter (·.1 ≠ follower) }

/-- One round of the chunk loop up to the call: the chunk to send for the image read
at the start of `SendSnapshotToFollower`, or no chunk when everything is
acknowledged or the node is no longer the leader of `term`. -/
def chunkRequest (follower term snapIndex snapTerm : Nat) (data : Bytes) :
    Node σ × Option InstallSnapshotChunkRequest :=
  if node.role ≠ .leader ∨ node.currentTerm ≠ term then (node, none)
  else
    let state := node.sendProgress follower snapIndex snapTerm data.length
    let node := node.setProgress follower state
    if data.length ≤ state.sent then (node.markInstalled follower snapIndex, none)
    else
      let take := min node.opts.snapshotChunkSize (data.length - state.sent)
      (node, some
        { term := term
          leaderId := node.opts.nodeId
          lastIncludedIndex := snapIndex
          lastIncludedTerm := snapTerm
          chunkOffset := state.sent
          totalSize := data.length
          isLast := decide (data.length ≤ state.sent + take)
          data := (data.drop state.sent).take take })

/-- What the chunk loop does with an answer. -/
def onChunkReply (follower : Nat) (req : InstallSnapshotChunkRequest)
    (resp : InstallSnapshotChunkResponse) : Node σ :=
  if node.role ≠ .leader then node
  else if node.currentTerm < resp.term then node.becomeFollower resp.term
  else if resp.rejected then
    { node with snapshotSends := node.snapshotSends.filter (·.1 ≠ follower) }
  else if resp.acceptedLen < req.chunkOffset then
    { node with snapshotSends := node.snapshotSends.filter (·.1 ≠ follower) }
  else if resp.acceptedLen = req.chunkOffset then node
  else
    let state := ((node.snapshotSends.find? (·.1 = follower)).map (·.2)).getD {}
    node.setProgress follower { state with sent := resp.acceptedLen }

/-! ## Installing a snapshot -/

/-- `ApplySnapshot` on the node's state machine; without one there is nothing to fail. -/
def applyImage (image : Bytes) : Node σ × Bool :=
  match machine with
  | none => (node, true)
  | some machine =>
      let result := machine.applySnapshot image node.machineState
      ({ node with machineState := result.2 }, result.1.isOk)

/-- `CommitInstalledSnapshot`: the log becomes one base entry at the cut. -/
def commitInstalledSnapshot (cutIndex cutTerm : Nat) (data : Bytes) : Node σ :=
  (saveSnapshotData
    { node with
      log := .single { index := cutIndex, term := cutTerm, type := .noOp }
      commitIndex := cutIndex
      lastApplied := cutIndex
      lastSnapshotIndex := cutIndex
      lastSnapshotTerm := cutTerm
      snapshotData := data }).savePersistentState

/-- A node that accepts a snapshot's sender as its leader. -/
def observeLeader (term leaderId : Nat) : Node σ :=
  { node.observeTerm term with leaderId := leaderId }

/-- `HandleInstallSnapshot`. -/
def handleInstallSnapshot (req : InstallSnapshotRequest) : Node σ × InstallSnapshotResponse :=
  if req.term < node.currentTerm then (node, { term := node.currentTerm })
  else
    let observed := node.observeLeader req.term req.leaderId
    if req.data = [] then (observed, { term := node.currentTerm })
    else if req.lastIncludedIndex ≤ observed.lastApplied then
      (observed, { term := node.currentTerm, success := true })
    else
      let applied := observed.applyImage machine req.data
      if applied.2 = false then (applied.1, { term := node.currentTerm })
      else
        (applied.1.commitInstalledSnapshot req.lastIncludedIndex req.lastIncludedTerm req.data,
          { term := node.currentTerm, success := true })

end Node

/-! ## Staging chunks -/

namespace SnapshotStaging

variable (staging : SnapshotStaging) (req : InstallSnapshotChunkRequest)

/-- The staged bytes belong to another image than the chunk. -/
def identityChanged : Bool :=
  staging.active &&
    (decide (staging.lastIncludedIndex ≠ req.lastIncludedIndex) ||
      decide (staging.lastIncludedTerm ≠ req.lastIncludedTerm) ||
      decide (staging.expectedSize ≠ req.totalSize))

/-- Staging after a changed identity has discarded the old bytes. -/
def retag : SnapshotStaging :=
  if staging.identityChanged req then {} else staging

/-- Start tagging an idle staging area with the identity of the chunk. -/
def activate : SnapshotStaging :=
  if staging.active then staging
  else
    { staging with
      active := true
      term := req.term
      leaderId := req.leaderId
      lastIncludedIndex := req.lastIncludedIndex
      lastIncludedTerm := req.lastIncludedTerm
      expectedSize := req.totalSize }

/-- What a chunk does to the staging area: it leaves a gap, the image is still
incomplete, or the image is full and leaves the staging area. -/
inductive Outcome where
  | gap
  | more (staging : SnapshotStaging)
  | full (image : Bytes)
  deriving DecidableEq, Repr

/-- The staging block of `HandleInstallSnapshotChunk`. -/
def stageChunk : Outcome :=
  let staging := staging.retag req
  if staging.buffer.length < req.chunkOffset then .gap
  else
    -- A chunk below the end drops the tail and takes it again.
    let buffer := staging.buffer.take req.chunkOffset ++ req.data
    if buffer.length < req.totalSize then .more { staging.activate req with buffer := buffer }
    else .full buffer

end SnapshotStaging

namespace Node

variable {σ : Type} (machine : Option (StateMachine σ)) (node : Node σ)

/-- The checks in front of the staging block. The sum of offset and length is a
64-bit one. -/
def chunkAdmitted (opts : RaftOptions) (req : InstallSnapshotChunkRequest) : Bool :=
  decide (req.data ≠ []) && decide (req.totalSize ≠ 0) &&
    decide (req.totalSize ≤ opts.maxSnapshotSize) &&
    decide ((req.chunkOffset + req.data.length) % 2 ^ 64 ≤ req.totalSize)

/-- The outcome of one chunk: the node, its answer, and the completed image, which is
the one given to `ApplySnapshot`. -/
structure ChunkResult (σ : Type) where
  node : Node σ
  resp : InstallSnapshotChunkResponse
  image : Option Bytes

/-- The staging area is given up when its image is complete. -/
def clearStaging (leaderId : Nat) : Node σ :=
  { node with staging := {}, leaderId := leaderId }

/-- The end of `HandleInstallSnapshotChunk`, once the image is complete. -/
def installImage (req : InstallSnapshotChunkRequest) (image : Bytes) : ChunkResult σ :=
  let resp : InstallSnapshotChunkResponse :=
    { term := node.currentTerm, acceptedLen := image.length, rejected := true }
  let applied := (node.clearStaging req.leaderId).applyImage machine image
  if applied.2 = false then ⟨applied.1, resp, some image⟩
  else
    ⟨applied.1.commitInstalledSnapshot req.lastIncludedIndex req.lastIncludedTerm image,
      { resp with complete := true, rejected := false }, some image⟩

/-- `HandleInstallSnapshotChunk`. -/
def handleInstallSnapshotChunk (req : InstallSnapshotChunkRequest) : ChunkResult σ :=
  if req.term < node.currentTerm then
    ⟨node, { term := node.currentTerm, rejected := true }, none⟩
  else
    let observed := node.observeTerm req.term
    if chunkAdmitted observed.opts req = false then
      ⟨observed, { term := observed.currentTerm, rejected := true }, none⟩
    else
      match observed.staging.stageChunk req with
      | .gap =>
          ⟨{ observed with staging := {} },
            { term := observed.currentTerm, rejected := true }, none⟩
      | .more staging =>
          ⟨{ observed with staging := staging },
            { term := observed.currentTerm, acceptedLen := staging.buffer.length }, none⟩
      | .full image => observed.installImage machine req image

end Node

/-! ## Staging is sound -/

/-- What names a snapshot: the identity the staging area is tagged with. -/
structure SnapshotId where
  lastIncludedIndex : Nat
  lastIncludedTerm : Nat
  totalSize : Nat
  deriving DecidableEq, Repr

/-- The snapshot a chunk claims to be part of. -/
def InstallSnapshotChunkRequest.identity (req : InstallSnapshotChunkRequest) : SnapshotId :=
  ⟨req.lastIncludedIndex, req.lastIncludedTerm, req.totalSize⟩

/-- The snapshot the staging area is tagged with. -/
def SnapshotStaging.identity (staging : SnapshotStaging) : SnapshotId :=
  ⟨staging.lastIncludedIndex, staging.lastIncludedTerm, staging.expectedSize⟩

/-- The chunk was cut from the image its identity names, at any offset and length. -/
structure CutFrom (images : SnapshotId → Bytes) (req : InstallSnapshotChunkRequest) : Prop where
  sized : (images req.identity).length = req.totalSize
  bytes : ∃ count, req.data = ((images req.identity).drop req.chunkOffset).take count

namespace SnapshotStaging

variable {staging : SnapshotStaging} {req : InstallSnapshotChunkRequest}
  {images : SnapshotId → Bytes}

/-- The staged bytes are a prefix of the image they are tagged with and stay within
the limit; an idle staging area is empty. -/
structure Sound (images : SnapshotId → Bytes) (limit : Nat) (staging : SnapshotStaging) : Prop where
  bounded : staging.buffer.length ≤ limit
  idle : staging.active = false → staging.buffer = []
  held : staging.active = true → staging.buffer <+: images staging.identity

theorem sound_empty (images : SnapshotId → Bytes) (limit : Nat) : Sound images limit {} :=
  ⟨Nat.zero_le _, fun _ => rfl, fun active => by simp at active⟩

/-- An active staging area whose identity did not change has the chunk's identity. -/
theorem identity_of_unchanged (active : staging.active = true)
    (unchanged : staging.identityChanged req = false) : staging.identity = req.identity := by
  unfold identityChanged at unchanged
  simp only [active, Bool.true_and, Bool.or_eq_false_iff, decide_eq_false_iff_not,
    Decidable.not_not] at unchanged
  obtain ⟨⟨index_eq, term_eq⟩, size_eq⟩ := unchanged
  simp only [identity, InstallSnapshotChunkRequest.identity, index_eq, term_eq, size_eq]

/-- After retagging, whatever is staged belongs to the chunk's own image. -/
theorem retag_sound (sound : Sound images limit staging) :
    Sound images limit (staging.retag req) ∧
      ((staging.retag req).active = true → (staging.retag req).identity = req.identity) := by
  unfold retag
  cases changed : staging.identityChanged req with
  | true => exact ⟨sound_empty images limit, fun active => by simp at active⟩
  | false => exact ⟨sound, fun active => identity_of_unchanged active changed⟩

/-- Without a gap, the bytes in front of the chunk are the image's. -/
theorem take_eq_image (sound : Sound images limit staging)
    (tagged : staging.active = true → staging.identity = req.identity)
    (reached : req.chunkOffset ≤ staging.buffer.length) :
    staging.buffer.take req.chunkOffset = (images req.identity).take req.chunkOffset := by
  cases active : staging.active with
  | false =>
    have empty := sound.idle active
    rw [empty] at reached
    have start : req.chunkOffset = 0 := Nat.le_zero.mp reached
    simp [start]
  | true =>
    obtain ⟨_, whole⟩ := sound.held active
    rw [← tagged active, ← whole, take_append_of_le_length reached]

/-- The tag of an activated staging area is the chunk's identity. -/
theorem activate_identity (tagged : staging.active = true → staging.identity = req.identity) :
    (staging.activate req).active = true ∧ (staging.activate req).identity = req.identity := by
  unfold activate
  cases active : staging.active with
  | true => exact ⟨by simp [active], by simpa using tagged active⟩
  | false => exact ⟨by simp, by simp [identity, InstallSnapshotChunkRequest.identity]⟩

/-- One chunk keeps the staging area sound, and an image it completes is the one the
chunk names. -/
theorem stageChunk_sound (sound : Sound images limit staging) (cut : CutFrom images req)
    (allowed : req.totalSize ≤ limit) :
    (∀ next, staging.stageChunk req = .more next → Sound images limit next) ∧
      (∀ image, staging.stageChunk req = .full image → image = images req.identity) := by
  obtain ⟨tagged_sound, tagged⟩ := retag_sound sound
  obtain ⟨count, bytes⟩ := cut.bytes
  unfold stageChunk
  by_cases gap : (staging.retag req).buffer.length < req.chunkOffset
  · rw [if_pos gap]
    exact ⟨fun _ impossible => by simp at impossible, fun _ impossible => by simp at impossible⟩
  rw [if_neg gap]
  -- The kept bytes and the chunk together are again a prefix of the image.
  have joined : (staging.retag req).buffer.take req.chunkOffset ++ req.data =
      (images req.identity).take (req.chunkOffset + count) := by
    rw [take_eq_image tagged_sound tagged (Nat.le_of_not_lt gap), bytes, ← take_add]
  rw [joined]
  by_cases short : ((images req.identity).take (req.chunkOffset + count)).length < req.totalSize
  · rw [if_pos short]
    refine ⟨?_, fun _ impossible => by simp at impossible⟩
    intro _ staged
    obtain ⟨active, identity_eq⟩ := activate_identity tagged
    rw [Outcome.more.injEq] at staged
    subst staged
    refine ⟨by dsimp only; omega, fun idle => by simp [active] at idle, fun _ => ?_⟩
    have named : images req.identity = images ((staging.retag req).activate req).identity := by
      rw [identity_eq]
    exact named ▸ take_prefix _ _
  · rw [if_neg short]
    refine ⟨fun _ impossible => by simp at impossible, ?_⟩
    intro _ staged
    rw [Outcome.full.injEq] at staged
    rw [← staged]
    refine take_of_length_le ?_
    rw [length_take] at short
    rw [cut.sized]
    omega

end SnapshotStaging

namespace Node

variable {σ : Type}
  (machine : Option (StateMachine σ)) (node : Node σ) (req : InstallSnapshotChunkRequest)

theorem applyImage_frame :
    (node.applyImage machine image).1.log = node.log ∧
      (node.applyImage machine image).1.staging = node.staging ∧
      (node.applyImage machine image).1.opts = node.opts := by
  cases machine <;> exact ⟨rfl, rfl, rfl⟩

/-- The staging area and the options after an installation. -/
theorem commitInstalledSnapshot_frame :
    (node.commitInstalledSnapshot cutIndex cutTerm data).staging = node.staging ∧
      (node.commitInstalledSnapshot cutIndex cutTerm data).opts = node.opts ∧
      (node.commitInstalledSnapshot cutIndex cutTerm data).log =
        .single { index := cutIndex, term := cutTerm, type := .noOp } := by
  unfold commitInstalledSnapshot saveSnapshotData
  split <;> exact ⟨rfl, rfl, rfl⟩

/-- Installing a complete image empties the staging area. -/
theorem installImage_frame :
    (node.installImage machine req image).node.staging = {} ∧
      (node.installImage machine req image).node.opts = node.opts ∧
      (node.installImage machine req image).image = some image := by
  obtain ⟨_, staging_eq, opts_eq⟩ := applyImage_frame machine (node.clearStaging req.leaderId)
  unfold installImage
  dsimp only
  split
  · exact ⟨staging_eq, opts_eq, rfl⟩
  · obtain ⟨kept_staging, kept_opts, _⟩ := commitInstalledSnapshot_frame
      ((node.clearStaging req.leaderId).applyImage machine image).1
    exact ⟨kept_staging.trans staging_eq, kept_opts.trans opts_eq, rfl⟩

/-- What a node does with an image that is complete: `ApplySnapshot`, and if that succeeds
`CommitInstalledSnapshot`. -/
def takeImage (index term : Nat) (image : Bytes) : Node σ :=
  if (node.applyImage machine image).2 = false then (node.applyImage machine image).1
  else (node.applyImage machine image).1.commitInstalledSnapshot index term image

/-- What a single message can do: it is refused, ignored, or its image is taken. -/
theorem handleInstallSnapshot_cases (req : InstallSnapshotRequest) :
    (req.term < node.currentTerm ∧ (handleInstallSnapshot machine node req).1 = node) ∨
    node.currentTerm ≤ req.term ∧
      ((req.data = [] ∨ req.lastIncludedIndex ≤ node.lastApplied) ∧
          (handleInstallSnapshot machine node req).1 = node.observeLeader req.term req.leaderId ∨
        (req.data ≠ [] ∧ node.lastApplied < req.lastIncludedIndex) ∧
          (handleInstallSnapshot machine node req).1 =
            (node.observeLeader req.term req.leaderId).takeImage machine req.lastIncludedIndex
              req.lastIncludedTerm req.data) := by
  obtain ⟨_, _, _, applied_eq, _⟩ := observeTerm_frame node req.term
  unfold handleInstallSnapshot
  by_cases stale : req.term < node.currentTerm
  · rw [if_pos stale]
    exact .inl ⟨stale, rfl⟩
  rw [if_neg stale]
  refine .inr ⟨Nat.le_of_not_lt stale, ?_⟩
  dsimp only
  by_cases empty : req.data = []
  · rw [if_pos empty]
    exact .inl ⟨.inl empty, rfl⟩
  rw [if_neg empty]
  by_cases old : req.lastIncludedIndex ≤ (node.observeLeader req.term req.leaderId).lastApplied
  · rw [if_pos old]
    exact .inl ⟨.inr (applied_eq ▸ old), rfl⟩
  rw [if_neg old]
  refine .inr ⟨⟨empty, applied_eq ▸ Nat.lt_of_not_le old⟩, ?_⟩
  unfold takeImage
  split
  · rfl
  · rfl

/-- What one chunk can do: it is refused before the staging block, leaves a gap, is
staged, or completes an image. -/
theorem handleInstallSnapshotChunk_cases :
    let result := handleInstallSnapshotChunk machine node req
    let observed := node.observeTerm req.term
    let refusal := { term := observed.currentTerm, rejected := true }
    (req.term < node.currentTerm ∧
      result = ⟨node, { term := node.currentTerm, rejected := true }, none⟩) ∨
    node.currentTerm ≤ req.term ∧
      ((chunkAdmitted node.opts req = false ∧ result = ⟨observed, refusal, none⟩) ∨
        chunkAdmitted node.opts req = true ∧
          ((node.staging.stageChunk req = .gap ∧
              result = ⟨{ observed with staging := {} }, refusal, none⟩) ∨
            (∃ staging, node.staging.stageChunk req = .more staging ∧
              result = ⟨{ observed with staging := staging },
                { term := observed.currentTerm, acceptedLen := staging.buffer.length }, none⟩) ∨
            ∃ image, node.staging.stageChunk req = .full image ∧
              result = observed.installImage machine req image)) := by
  obtain ⟨_, staging_eq, opts_eq, _⟩ := observeTerm_frame node req.term
  unfold handleInstallSnapshotChunk
  by_cases stale : req.term < node.currentTerm
  · rw [if_pos stale]
    exact .inl ⟨stale, rfl⟩
  rw [if_neg stale]
  dsimp only
  rw [opts_eq, staging_eq]
  refine .inr ⟨Nat.le_of_not_lt stale, ?_⟩
  cases chunkAdmitted node.opts req with
  | false => exact .inl ⟨rfl, rfl⟩
  | true =>
    refine .inr ⟨rfl, ?_⟩
    cases node.staging.stageChunk req with
    | gap => exact .inl ⟨rfl, rfl⟩
    | more staging => exact .inr (.inl ⟨staging, rfl, rfl⟩)
    | full image => exact .inr (.inr ⟨image, rfl, rfl⟩)

/-- A complete image is taken with an empty staging area. -/
theorem installImage_node :
    (node.installImage machine req image).node =
      (node.clearStaging req.leaderId).takeImage machine req.lastIncludedIndex
        req.lastIncludedTerm image := by
  unfold installImage takeImage
  dsimp only
  split
  · rfl
  · rfl

theorem totalSize_le_of_admitted {opts : RaftOptions} {req : InstallSnapshotChunkRequest}
    (admitted : chunkAdmitted opts req = true) : req.totalSize ≤ opts.maxSnapshotSize := by
  unfold chunkAdmitted at admitted
  simp only [Bool.and_eq_true, decide_eq_true_eq] at admitted
  exact admitted.1.2

/-- The step lemma of chunked transfer: one delivery keeps the staging area sound and
gives `ApplySnapshot` no image but the one it names. -/
theorem handleInstallSnapshotChunk_sound {node : Node σ} {images : SnapshotId → Bytes}
    {req : InstallSnapshotChunkRequest}
    (sound : node.staging.Sound images node.opts.maxSnapshotSize) (cut : CutFrom images req) :
    (handleInstallSnapshotChunk machine node req).node.opts = node.opts ∧
      (handleInstallSnapshotChunk machine node req).node.staging.Sound images
        node.opts.maxSnapshotSize ∧
      ∀ image, (handleInstallSnapshotChunk machine node req).image = some image →
        image = images req.identity := by
  obtain ⟨_, staging_eq, opts_eq, _⟩ := observeTerm_frame node req.term
  have emptied := sound_empty images node.opts.maxSnapshotSize
  rcases handleInstallSnapshotChunk_cases machine node req with
    ⟨_, same⟩ | ⟨_, ⟨_, same⟩ | ⟨admitted, staged⟩⟩
  · rw [same]
    exact ⟨rfl, sound, nofun⟩
  · rw [same, staging_eq]
    exact ⟨opts_eq, sound, nofun⟩
  obtain ⟨more_sound, named⟩ := stageChunk_sound sound cut (totalSize_le_of_admitted admitted)
  rcases staged with ⟨_, same⟩ | ⟨staging, more, same⟩ | ⟨image, full, same⟩
  · rw [same]
    exact ⟨opts_eq, emptied, nofun⟩
  · rw [same]
    exact ⟨opts_eq, more_sound staging more, nofun⟩
  · obtain ⟨cleared, kept, passed⟩ := installImage_frame machine (node.observeTerm req.term) req
    rw [same, cleared, passed]
    refine ⟨kept.trans opts_eq, emptied, ?_⟩
    intro _ given_eq
    exact Option.some.inj given_eq ▸ named image full

/-- The node after a sequence of chunk deliveries. -/
abbrev deliverChunks : Node σ → List InstallSnapshotChunkRequest → Node σ :=
  Runs.run fun node req => (handleInstallSnapshotChunk machine node req).node

/-- The run lemma: from a sound staging area every sequence of cut chunks ends in one. -/
theorem deliverChunks_sound (node : Node σ)
    (sound : node.staging.Sound images node.opts.maxSnapshotSize)
    (cut : ∀ req ∈ reqs, CutFrom images req) :
    (deliverChunks machine node reqs).opts = node.opts ∧
      (deliverChunks machine node reqs).staging.Sound images node.opts.maxSnapshotSize := by
  let kept : Node σ → Prop := fun later =>
    later.opts = node.opts ∧ later.staging.Sound images node.opts.maxSnapshotSize
  have stays : kept (deliverChunks machine node reqs) := by
    refine (Runs.meets_of_forall cut).invariant ⟨rfl, sound⟩ ?_
    rintro later _ ⟨opts_eq, later_sound⟩ req_cut
    rw [← opts_eq] at later_sound
    obtain ⟨next_opts, next_sound, _⟩ :=
      handleInstallSnapshotChunk_sound machine later_sound req_cut
    exact ⟨next_opts.trans opts_eq, opts_eq ▸ next_sound⟩
  exact stays

/-- Chunked snapshot transfer under any schedule. Starting from an idle staging area,
after any sequence of chunks cut from a family of images, the staged bytes are a
prefix of the image they are tagged with and within the limit, and the next chunk
makes the handler apply no image but the one that chunk names. -/
theorem chunk_staging_sound (images : SnapshotId → Bytes)
    (node : Node σ) (idle : node.staging = {}) (reqs : List InstallSnapshotChunkRequest)
    (cut : ∀ req ∈ reqs, CutFrom images req) :
    (deliverChunks machine node reqs).staging.Sound images node.opts.maxSnapshotSize ∧
      ∀ req, CutFrom images req → ∀ image,
        (handleInstallSnapshotChunk machine (deliverChunks machine node reqs) req).image =
            some image → image = images req.identity := by
  have start : node.staging.Sound images node.opts.maxSnapshotSize := by
    rw [idle]
    exact sound_empty _ _
  obtain ⟨opts_eq, sound⟩ := deliverChunks_sound machine node start cut
  refine ⟨sound, ?_⟩
  intro req req_cut image passed
  rw [← opts_eq] at sound
  exact (handleInstallSnapshotChunk_sound machine sound req_cut).2.2 image passed

/-- A node that has received nothing yet. -/
def idleNode : Node Unit where
  opts := .ofThree 2
  machineState := ()

/-- A three-byte snapshot at index five, cut at `chunkOffset`. -/
def chunkOf (chunkOffset : Nat) (data : Bytes) : InstallSnapshotChunkRequest where
  term := 1
  leaderId := 1
  lastIncludedIndex := 5
  lastIncludedTerm := 1
  chunkOffset := chunkOffset
  totalSize := 3
  isLast := false
  data := data

/-- After a first chunk, a repeated one and the last one, the completed image is the
whole snapshot. -/
theorem chunk_staging_sound_three_bytes :
    (handleInstallSnapshotChunk none
        (deliverChunks none idleNode [chunkOf 0 [7, 8], chunkOf 1 [8]]) (chunkOf 2 [9])).image =
      some [7, 8, 9] := by
  have images_cut : ∀ req ∈ [chunkOf 0 [7, 8], chunkOf 1 [8], chunkOf 2 [9]],
      CutFrom (fun _ => [7, 8, 9]) req := by
    intro req member
    simp only [mem_cons, not_mem_nil, or_false] at member
    rcases member with rfl | rfl | rfl
    · exact ⟨rfl, 2, rfl⟩
    · exact ⟨rfl, 1, rfl⟩
    · exact ⟨rfl, 1, rfl⟩
  have passed := (chunk_staging_sound none (fun _ => [7, 8, 9]) idleNode rfl
    [chunkOf 0 [7, 8], chunkOf 1 [8]]
    (fun req member => images_cut req (mem_append_left [chunkOf 2 [9]] member))).2
    (chunkOf 2 [9]) (images_cut _ (by simp))
  cases complete : (handleInstallSnapshotChunk none
      (deliverChunks none idleNode [chunkOf 0 [7, 8], chunkOf 1 [8]]) (chunkOf 2 [9])).image with
  | none => exact absurd complete (by decide)
  | some image => rw [passed image complete]

/-! ## Acknowledged entries and installation -/

/-- A snapshot message of either kind. -/
inductive SnapshotMessage where
  | whole (req : InstallSnapshotRequest)
  | chunk (req : InstallSnapshotChunkRequest)

/-- The index a snapshot message cuts at. -/
def SnapshotMessage.lastIncludedIndex : SnapshotMessage → Nat
  | .whole req => req.lastIncludedIndex
  | .chunk req => req.lastIncludedIndex

/-- The term a snapshot message gives to its cut. -/
def SnapshotMessage.lastIncludedTerm : SnapshotMessage → Nat
  | .whole req => req.lastIncludedTerm
  | .chunk req => req.lastIncludedTerm

/-- The node after one snapshot message. -/
def deliverSnapshot : SnapshotMessage → Node σ
  | .whole req => (handleInstallSnapshot machine node req).1
  | .chunk req => (handleInstallSnapshotChunk machine node req).node

/-- The message passes every check in front of `CommitInstalledSnapshot`: it is not of
an old term and not empty, `ApplySnapshot` accepts the image, and the image is
newer than what was applied (single message) or completed by this chunk. -/
def installs : SnapshotMessage → Bool
  | .whole req =>
      decide (node.currentTerm ≤ req.term) && decide (req.data ≠ []) &&
        decide (node.lastApplied < req.lastIncludedIndex) &&
        (node.applyImage machine req.data).2
  | .chunk req =>
      decide (node.currentTerm ≤ req.term) && chunkAdmitted node.opts req &&
        match node.staging.stageChunk req with
        | .full image => (node.applyImage machine image).2
        | _ => false

/-- Whether an image is accepted depends on the state machine only. -/
theorem applyImage_accepted {node other : Node σ} (same : other.machineState = node.machineState) :
    (other.applyImage machine image).2 = (node.applyImage machine image).2 := by
  cases machine with
  | none => rfl
  | some _ => simp only [applyImage, same]

/-- An image that is taken replaces the log by its cut, one that is refused leaves it alone. -/
theorem takeImage_log {node : Node σ} (other : Node σ) (log_eq : other.log = node.log)
    (machine_eq : other.machineState = node.machineState) {term : Nat} :
    (other.takeImage machine index term image).log =
      if (node.applyImage machine image).2 then .single { index, term, type := .noOp }
      else node.log := by
  rw [takeImage, applyImage_accepted machine machine_eq]
  cases (node.applyImage machine image).2 with
  | false =>
    rw [if_pos rfl, (applyImage_frame machine other).1]
    exact log_eq
  | true => exact (commitInstalledSnapshot_frame _).2.2

/-- The log behind a snapshot message: the cut of an image that is installed, else the old log. -/
def logBehind (message : SnapshotMessage) : RaftLog :=
  if installs machine node message then
    .single { index := message.lastIncludedIndex, term := message.lastIncludedTerm, type := .noOp }
  else node.log

theorem handleInstallSnapshot_log {req : InstallSnapshotRequest} :
    (handleInstallSnapshot machine node req).1.log = logBehind machine node (.whole req) := by
  unfold logBehind
  obtain ⟨log_eq, _, _, _, machine_eq⟩ := observeTerm_frame node req.term
  rcases handleInstallSnapshot_cases machine node req with
    ⟨stale, same⟩ | ⟨current, ⟨ignored, same⟩ | ⟨⟨nonempty, newer⟩, same⟩⟩
  · simp [same, installs, not_le.mpr stale]
  · have refused : installs machine node (.whole req) = false := by
      rcases ignored with empty | old
      · simp [installs, empty]
      · simp [installs, not_lt.mpr old]
    rw [same, refused]
    exact log_eq
  · rw [same]
    simp only [installs, current, nonempty, newer, ne_eq]
    exact takeImage_log machine (node.observeLeader req.term req.leaderId) log_eq machine_eq

theorem handleInstallSnapshotChunk_log :
    (handleInstallSnapshotChunk machine node req).node.log =
      logBehind machine node (.chunk req) := by
  unfold logBehind
  obtain ⟨log_eq, _, _, _, machine_eq⟩ := observeTerm_frame node req.term
  rcases handleInstallSnapshotChunk_cases machine node req with
    ⟨stale, same⟩ | ⟨_, ⟨refused, same⟩ |
      ⟨admitted, ⟨gap, same⟩ | ⟨_, more, same⟩ | ⟨image, full, same⟩⟩⟩
  · simp [same, installs, not_le.mpr stale]
  · simp [same, installs, refused, log_eq]
  · simp [same, installs, gap, log_eq]
  · simp [same, installs, more, log_eq]
  · rw [same, installImage_node]
    rename_i current
    simp only [installs, current, admitted, full]
    exact takeImage_log machine (clearStaging _ req.leaderId) log_eq machine_eq

/-- The log after one snapshot message of either kind. -/
theorem deliverSnapshot_log (message : SnapshotMessage) :
    (deliverSnapshot machine node message).log = logBehind machine node message := by
  cases message with
  | whole _ => exact handleInstallSnapshot_log machine node
  | chunk req => exact handleInstallSnapshotChunk_log machine node req

/-- The node after a sequence of snapshot messages. -/
abbrev deliverSnapshots : Node σ → List SnapshotMessage → Node σ :=
  Runs.run (deliverSnapshot machine)

/-- No message of the sequence is installed in the state it arrives in. -/
abbrev NoneInstalled : Node σ → List SnapshotMessage → Prop :=
  Runs.Meets (deliverSnapshot machine) fun node message => installs machine node message = false

/-- Once an index is missing, snapshot messages that cut below it do not bring it back. -/
theorem entryAt_none_of_deliverSnapshots (node : Node σ) (missing : node.log.entryAt index = none)
    (below : ∀ message ∈ messages, message.lastIncludedIndex < index) :
    (deliverSnapshots machine node messages).log.entryAt index = none := by
  let lacks : Node σ → Prop := fun node => node.log.entryAt index = none
  have stays : lacks (deliverSnapshots machine node messages) := by
    refine (Runs.meets_of_forall below).invariant missing fun node message gone lower => ?_
    unfold lacks
    rw [deliverSnapshot_log, logBehind]
    split
    · rw [RaftLog.entryAt_single, if_neg (by dsimp only; omega)]
    · exact gone
  exact stays

/-- An entry above every cut survives exactly when nothing is installed. -/
theorem entryAt_deliverSnapshots_iff (node : Node σ) (held : node.log.entryAt index = some entry)
    (below : ∀ message ∈ messages, message.lastIncludedIndex < index) :
    (deliverSnapshots machine node messages).log.entryAt index = some entry ↔
      NoneInstalled machine node messages := by
  induction messages generalizing node with
  | nil => exact ⟨fun _ => trivial, fun _ => held⟩
  | cons message rest ih =>
    have lower := below message mem_cons_self
    have rest_below : ∀ other ∈ rest, other.lastIncludedIndex < index :=
      fun other member => below other (mem_cons_of_mem _ member)
    have log_eq := deliverSnapshot_log machine node message
    cases installed : installs machine node message with
    | false =>
      rw [logBehind, installed] at log_eq
      have next := ih (deliverSnapshot machine node message) (log_eq ▸ held) rest_below
      rw [NoneInstalled, Runs.Meets, installed, eq_self, true_and]
      exact next
    | true =>
      rw [logBehind, installed, if_pos rfl] at log_eq
      have gone : (deliverSnapshot machine node message).log.entryAt index = none := by
        rw [log_eq, RaftLog.entryAt_single, if_neg (by dsimp only; omega)]
      have lost := entryAt_none_of_deliverSnapshots machine _ gone rest_below
      constructor
      · intro survived
        exact absurd (lost.symm.trans survived) (by simp)
      · rintro ⟨refused, _⟩
        simp [installed] at refused

/-- A successful `HandleAppendEntries` leaves an entry at the index of every entry of
its slice. -/
theorem handleAppendEntries_stores_last {machine : Option (StateMachine σ)} {node : Node σ}
    {req : AppendEntriesRequest}
    (answered : (handleAppendEntries machine node req).2.success = true)
    (sent : req.entries.getLast? = some last) :
    ∃ entry, (handleAppendEntries machine node req).1.log.entryAt last.index = some entry := by
  obtain ⟨merged, log_eq, _⟩ := handleAppendEntries_success answered
  rw [log_eq]
  obtain ⟨front, split⟩ := getLast?_eq_some_iff.mp sent
  rw [split] at merged ⊢
  exact RaftLog.appendEntries_stores_last node.log merged

/-- Acknowledged entries and later snapshot messages. After a follower answered success
to an `AppendEntries` whose last entry has index `last.index`, and after any sequence
of snapshot messages that cut below it, the log still holds the entry it held there
exactly when none of them was installed. -/
theorem acked_entry_survives_snapshots_iff (node : Node σ)
    (req : AppendEntriesRequest) (last : RaftLogEntry)
    (sent : req.entries.getLast? = some last)
    (answered : (handleAppendEntries machine node req).2.success = true)
    (messages : List SnapshotMessage)
    (below : ∀ message ∈ messages, message.lastIncludedIndex < last.index) :
    (deliverSnapshots machine (handleAppendEntries machine node req).1 messages).log.entryAt
          last.index = (handleAppendEntries machine node req).1.log.entryAt last.index ↔
      NoneInstalled machine (handleAppendEntries machine node req).1 messages := by
  obtain ⟨entry, held⟩ := handleAppendEntries_stores_last answered sent
  rw [held]
  exact entryAt_deliverSnapshots_iff machine _ held below

/-- A state machine that accepts every snapshot. -/
def acceptingMachine : StateMachine Unit where
  apply _ _ := ()
  takeSnapshot _ := [1]
  applySnapshot _ _ := (.ok, ())

/-- Two entries of term one for an empty log. -/
def twoEntries : AppendEntriesRequest where
  term := 1
  leaderId := 1
  prevLogIndex := 0
  prevLogTerm := 0
  entries :=
    [{ index := 1, term := 1, type := .command, data := [97] },
      { index := 2, term := 1, type := .command, data := [98] }]
  leaderCommit := 0

/-- A snapshot up to index one, of the term the entries have. -/
def snapshotAtOne (term : Nat) : InstallSnapshotRequest where
  term := term
  leaderId := 1
  lastIncludedIndex := 1
  lastIncludedTerm := 1
  data := [1]

/-- A snapshot message of an old term is refused, and the second entry survives it. -/
theorem acked_entry_survives_stale_snapshot :
    (deliverSnapshots (some acceptingMachine)
        (handleAppendEntries (some acceptingMachine) idleNode twoEntries).1
        [.whole (snapshotAtOne 0)]).log.entryAt 2 =
      (handleAppendEntries (some acceptingMachine) idleNode twoEntries).1.log.entryAt 2 :=
  (acked_entry_survives_snapshots_iff (some acceptingMachine) idleNode twoEntries
    { index := 2, term := 1, type := .command, data := [98] } rfl (by decide)
    [.whole (snapshotAtOne 0)] (by simp [SnapshotMessage.lastIncludedIndex, snapshotAtOne])).mpr
    ⟨by decide, trivial⟩

/-- The follower acknowledged entry two; a snapshot of index one, whose term is the one
its log holds there, then removes it. -/
theorem acked_entry_lost_by_snapshot :
    let (node, reply) := handleAppendEntries (some acceptingMachine) idleNode twoEntries
    reply.success = true ∧
      node.log.getTermForIndex 1 = (snapshotAtOne 1).lastIncludedTerm ∧
      node.log.entryAt 2 = some { index := 2, term := 1, type := .command, data := [98] } ∧
      (deliverSnapshots (some acceptingMachine) node
        [.whole (snapshotAtOne 1)]).log.entryAt 2 = none := by decide

end Node

end LightKV.Raft
