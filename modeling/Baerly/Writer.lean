import Baerly.Coordination.Manifest
import Baerly.DocId
import Baerly.LogTail

/-
  `Writer.commit` (`server/src/writer.ts`, `server/src/log-conflict-adoption.ts`).

  PROGRAM: read the manifest for a probe floor, find the first empty slot, PUT the index markers,
  and create `log/<seq>.json` with `If-None-Match: "*"`.  That create IS the commit.  A slot is
  sent to once; a rejected or uncertain create is resolved by reading the slot back.  An insert
  guard replaces the galloping search by a linear one that keeps the entries it passes and
  decides on them before every create.

  The session token of a call is its thread's number.  Index projection is a function of the
  configuration; markers are written and deleted here but never read.  The maintenance tick a
  commit may dispatch after its create is a set of calls of its own (`compact`, `runGc`,
  `retireLogRange`, the `tail_hint` refresh) that start with `observedTail = seq + 1`.
-/

namespace Baerly

open Async

/-! ## Input -/

/-- `InsertGuard`. -/
structure InsertGuard where
  absentBelowSeq : Nat
  replayIdentical : Bool

/-- `CommitInput`. -/
structure CommitInput where
  op : LogOp
  collection : JsString
  docId : JsString
  body : Option Doc
  origin : Option JsString
  insertGuard : Option InsertGuard

/-- What a `Writer` is constructed with, and the library function its checks call. -/
structure WriterConfig where
  /-- `indexes.length > 0`. -/
  indexed : Bool
  /-- `allIndexKeysFor(logPrefix, indexes, body, docId)`. -/
  allIndexKeysFor : Option Doc → JsString → Except Err (List Key)
  verifyLogIntegrityOnCommit : Bool
  normalizeNfc : JsString → JsString

/-- `PREIMAGE_SCAN_MAX_GETS`. -/
def preimageScanMaxGets : Nat := 8

/-- `assertInsertGuardShape`; that the seq is a non-negative integer holds by type. -/
def assertInsertGuardShape (input : CommitInput) (guard : InsertGuard) : Except Err Unit :=
  if input.op ≠ .I then
    .error (.mk .invalidConfig ("Writer: insertGuard is valid only with op \"I\"; got op " ++
      match input.op with | .U => "\"U\"" | _ => "\"D\""))
  else if maxSafeInteger < guard.absentBelowSeq then
    .error (.mk .invalidConfig ("Writer: insertGuard.absentBelowSeq must be a non-negative safe " ++
      s!"integer; got {guard.absentBelowSeq}"))
  else .ok ()

/-- The checks of `commit` that run before any request. -/
def CommitInput.precheck (cfg : WriterConfig) (input : CommitInput) : Except Err Unit := do
  if input.op = .D then assertStoredDocId input.docId
  else
    assertDocId cfg.normalizeNfc input.docId
    assertPostImageIdentity input.docId input.body
  match input.insertGuard with
  | some guard => assertInsertGuardShape input guard
  | none => .ok ()

/-- `mintEntry`: everything but the slot is fixed for the call. -/
def mintEntry (session commitNowMs : Nat) (input : CommitInput) (atSeq : Nat) : LogEntry where
  lsn := ⟨commitNowMs, session, atSeq⟩
  commitTs := commitNowMs
  op := input.op
  collection := input.collection
  docId := input.docId
  after := if input.op = .D then none else input.body
  origin := input.origin
  session := session
  seq := atSeq

/-! ## Step 1: the manifest -/

/-- The zero-state manifest of a fresh collection. -/
def zeroManifest (generation : JsString) : CurrentJson where
  snapshot := none
  tailHint := 0
  logSeqStart := 0
  writerFence := ⟨0, [], [], none⟩
  snapshotBytes := 0
  snapshotRows := 0
  meanEntryBytes := none
  lastWarnedSeq := none
  logDeleteFloor := none
  generation := some generation

/-- `#provisionCurrentJson`: create, or pick up the winner's manifest. -/
def provisionCurrentJson (c : Collection) : Task CurrentJson := do
  let generation ← Task.mintGeneration
  match ← Prog.attempt (createCurrentJson c (zeroManifest generation)) with
  | .ok created => .ret created
  | .error e =>
    if !e.isWriteConflict then .throw e
    else
      match ← readCurrentJson c with
      | some recovered => .ret recovered
      | none => .throw (.mk .invalidResponse (s!"Writer: current.json missing at " ++
          s!"{showKey c.currentJsonKey} after auto-create raced and recover read returned null"))

/-- Step 1 of a commit. -/
def readOrProvision (c : Collection) : Task CurrentJson := do
  match ← readCurrentJson c with
  | some current => .ret current
  | none => provisionCurrentJson c

/-! ## Step 3: the insert window -/

/-- The refusal of `#readFoldedInsertWindow`. -/
def refuseWindow (c : Collection) (fromSeq logSeqStart : Nat) (detail : String) : Err :=
  .mk .writeConflict (s!"Writer: insert window [{fromSeq}, {logSeqStart}) on " ++
    s!"{showKey c.currentJsonKey} {detail}; nothing was committed")

/-- The bodies of a chunk in slot order; the first missing slot refuses. -/
def collectBodies (c : Collection) (fromSeq logSeqStart : Nat)
    (bodies : List (Nat × Option LogEntry)) : List Nat → Except Err (List LogEntry)
  | [] => .ok []
  | n :: seqs =>
    match bodies.lookup n with
    | some (some entry) => (collectBodies c fromSeq logSeqStart bodies seqs).map (entry :: ·)
    | _ => .error (refuseWindow c fromSeq logSeqStart
        s!"was retired at seq {n} before it could be checked")

/-- One chunk of the folded window, read concurrently. -/
def foldedChunk (c : Collection) (fromSeq logSeqStart : Nat) (seqs : List Nat) :
    Task (List LogEntry) := do
  let bodies ← Task.all (Task.getLog .guard) seqs
  Task.ofExcept (collectBodies c fromSeq logSeqStart bodies seqs)

/-- The chunk loop of `#readFoldedInsertWindow`. -/
def foldedLoop (c : Collection) (fromSeq logSeqStart : Nat) : (fuel : Nat) → (chunk : Nat) →
    Task (List LogEntry)
  | 0, _ => .ret []
  | fuel + 1, chunk =>
    if logSeqStart ≤ chunk then .ret []
    else do
      let stop := min (chunk + maxParallelLogReads) logSeqStart
      let entries ← foldedChunk c fromSeq logSeqStart (List.range' chunk (stop - chunk))
      let rest ← foldedLoop c fromSeq logSeqStart fuel stop
      .ret (entries ++ rest)

/-- `#readFoldedInsertWindow`. -/
def readFoldedInsertWindow (c : Collection) (fromSeq logSeqStart : Nat) : Task (List LogEntry) :=
  if logSeqStart ≤ fromSeq then .ret []
  else if logForwardProbeCap < logSeqStart - fromSeq then
    .throw (refuseWindow c fromSeq logSeqStart s!"exceeds {logForwardProbeCap} folded entries")
  else foldedLoop c fromSeq logSeqStart (logSeqStart - fromSeq) fromSeq

/-- The loop of `decideInsertTarget` over the window, newest first. -/
def decideNewest (input : CommitInput) (replayIdentical : Bool) :
    List LogEntry → Except Err (Option LogEntry)
  | [] => .ok none
  | e :: es =>
    if e.collection ≠ input.collection ∨ e.docId ≠ input.docId then
      decideNewest input replayIdentical es
    else if e.op = .D then .ok none
    else if replayIdentical ∧ input.body.any fun body => insertReplaysRow body e.after then
      .ok (some e)
    else .error (insertAlreadyExists input.collection input.docId)

/-- `decideInsertTarget`: the last entry for the document decides. -/
def decideInsertTarget (window : List LogEntry) (input : CommitInput) (guard : InsertGuard) :
    Except Err (Option LogEntry) :=
  decideNewest input guard.replayIdentical window.reverse

/-! ## Step 4: index markers -/

/-- A marker that is already there is as good as one just written. -/
def settleMarker (p : Task (Option JsString)) : Task Unit := do
  match ← Prog.attempt p with
  | .ok _ => .ret ()
  | .error e => if e.isWriteConflict then .ret () else .throw e

/-- Step 4: PUT the markers of the new value; resolves with how many.  A key over the limit
    throws after the PUTs before it have left. -/
def putMarkers (cfg : WriterConfig) (input : CommitInput) : Task Nat :=
  if !cfg.indexed ∨ input.op = .D then .ret 0
  else do
    let newKeys ← Task.ofExcept (cfg.allIndexKeysFor input.body input.docId)
    let fits (key : Key) : Bool := utf8Length key ≤ maxKeyBytes
    match newKeys.find? fun key => !fits key with
    | none =>
      Task.writeAll settleMarker (newKeys.map Req.createMarker)
      .ret newKeys.length
    | some tooLong =>
      let _ ← Task.sendAll ((newKeys.takeWhile fits).map Req.createMarker)
      Task.ofExcept (assertKeyWithinLimit tooLong)
      .ret 0

/-! ## Step 5: the create -/

/-- `tryAdoptOwnSessionLogEntry`: same session, same seq, same content. -/
def tryAdoptOwnSessionLogEntry (self existing : LogEntry) : Bool :=
  existing.session = self.session ∧ existing.seq = self.seq ∧ existing = self

/-- `#readLogOccupant`; an entry always carries a writer identity here. -/
def readLogOccupant (c : Collection) (guarded : Bool) (seq : Nat) : Task LogEntry := do
  match ← Task.getLog (.occupant guarded) seq with
  | some existing => .ret existing
  | none => .throw (.mk .notFound
      s!"Writer: {showLogKey c seq} is empty after its create was rejected")

/-- `ambiguous`. -/
def ambiguousCreate (c : Collection) (docId : JsString) (seq : Nat) : Err :=
  .baerly .ambiguousCommit (s!"Writer: the committing create at seq {seq} on " ++
    s!"{showKey c.currentJsonKey} was rejected and its fate could not be resolved; an earlier " ++
    "send may already have landed or may still land, so retrying may duplicate logical work")
    (some docId) false

/-- How the create loop ended. -/
inductive CreateOutcome where
  /-- The entry is at its slot, freshly created or adopted. -/
  | committed (entry : LogEntry)
  /-- A guarded insert found its own earlier success. -/
  | replayed (entry : LogEntry)

/-- The slot to try after losing one to `occupant`, and the grown window of a guarded insert; or
    the row a guarded insert replays. -/
def nextSlot (c : Collection) (input : CommitInput) (window : List LogEntry) (seq : Nat)
    (occupant : LogEntry) : Task (Except LogEntry (Nat × List LogEntry)) :=
  match input.insertGuard with
  | none => do
    let next ← findLogTail c (seq + 1)
    .ret (.ok (next, window))
  | some guard => do
    let (tail, entries) ← probeTailFrom c .guard (seq + 1)
    let window' := window ++ [occupant] ++ entries
    match ← Task.ofExcept (decideInsertTarget window' input guard) with
    | some replayed => .ret (.error replayed)
    | none => .ret (.ok (tail, window'))

/-- One iteration of the create loop: create the slot, resolve a rejection by reading the slot
    back, and go on with `lost` when somebody else's entry is there. -/
def createStep (c : Collection) (session commitNowMs : Nat) (input : CommitInput) (seq : Nat)
    (lost : LogEntry → Task CreateOutcome) : Task CreateOutcome := do
  Task.ofExcept (assertKeyWithinLimit (logObjectKey c.collectionPrefix seq))
  let entry := mintEntry session commitNowMs input seq
  match ← Prog.attempt (Task.write (.createLog seq entry input.insertGuard.isSome)) with
  | .ok _ => .ret (.committed entry)
  | .error createFailure =>
    if !createFailure.isWriteConflict ∧ createFailure.isNotApplied then .throw createFailure
    else
      match ← Prog.attempt (readLogOccupant c input.insertGuard.isSome seq) with
      | .error _ => .throw (ambiguousCreate c input.docId seq)
      | .ok occupant =>
        if tryAdoptOwnSessionLogEntry entry occupant then .ret (.committed occupant)
        else lost occupant

/-- Step 5: the create loop, with `probes` lost slots still allowed. -/
def createLoop (c : Collection) (session commitNowMs : Nat) (input : CommitInput) :
    (probes : Nat) → (window : List LogEntry) → (seq : Nat) → Task CreateOutcome
  | 0, _, seq => createStep c session commitNowMs input seq fun _ =>
    .throw (.mk .internal (s!"Writer: log-tail forward-probe exceeded " ++
      s!"{logForwardProbeCap} on {showKey c.currentJsonKey}"))
  | probes + 1, window, seq => createStep c session commitNowMs input seq fun occupant => do
    match ← nextSlot c input window seq occupant with
    | .error replayed => .ret (.replayed replayed)
    | .ok (next, window') => createLoop c session commitNowMs input probes window' next

/-- `#assertCommitAboveDeleteFloor`; resolves with whether the re-read succeeded. -/
def assertCommitAboveDeleteFloor (c : Collection) (seq : Nat) (docId : JsString) : Task Bool := do
  match ← Prog.attempt (readCurrentJson c) with
  | .error .abort => .throw .abort
  | .error _ => .ret false
  | .ok none => .ret true
  | .ok (some json) =>
    let deleteFloor := certifiedDeleteFloor json
    if deleteFloor = 0 ∨ deleteFloor ≤ seq then .ret true
    else
      let _ ← Prog.attempt (Task.write (.deleteLog seq))
      .throw (.baerly .ambiguousCommit (s!"Writer: the committing create at seq {seq} on " ++
        s!"{showKey c.currentJsonKey} landed below the certified delete floor {deleteFloor}; " ++
        "that log object is beneath every reader's floor, and this mutation may or may not have " ++
        "been applied by an earlier attempt — retry is at-least-once") (some docId) false)

/-- `#readPreImage`: walk back from `seq - 1`, at most `budget` slots, over holes. -/
def readPreImage (collection docId : JsString) : (budget : Nat) → (seq : Nat) →
    Task (Option Doc)
  | 0, _ => .ret none
  | _, 0 => .ret none
  | budget + 1, seq + 1 => do
    match ← Task.getLog .preImage seq with
    | none => readPreImage collection docId budget seq
    | some entry =>
      if entry.collection ≠ collection ∨ entry.docId ≠ docId then
        readPreImage collection docId budget seq
      else if entry.op = .D then .ret none
      else
        match entry.after with
        | some doc => .ret (some doc)
        | none => readPreImage collection docId budget seq

/-- The stale marker keys of a committed update or delete. -/
def staleIndexKeys (cfg : WriterConfig) (input : CommitInput) (seq : Nat) : Task (List Key) :=
  match input.op with
  | .I => .ret []
  | .U => do
    let preImage ← readPreImage input.collection input.docId preimageScanMaxGets seq
    let oldKeys ← Task.ofExcept (cfg.allIndexKeysFor preImage input.docId)
    let newKeys ← Task.ofExcept (cfg.allIndexKeysFor input.body input.docId)
    .ret (oldKeys.filter fun key => !newKeys.contains key)
  | .D => do
    let preImage ← readPreImage input.collection input.docId preimageScanMaxGets seq
    Task.ofExcept (cfg.allIndexKeysFor preImage input.docId)

/-- `#cleanupStaleIndexKeysBestEffort`: no failure of it reaches the caller. -/
def cleanupStaleIndexKeysBestEffort (cfg : WriterConfig) (input : CommitInput) (seq : Nat) :
    Task Nat :=
  if !cfg.indexed then .ret 0
  else do
    match ← Prog.attempt (staleIndexKeys cfg input seq) with
    | .error _ => .ret 0
    | .ok staleKeys =>
      Task.writeAll (fun p => (Prog.attempt p).bind fun _ => .ret ())
        (staleKeys.map Req.deleteMarker)
      .ret staleKeys.length

/-! ## The commit -/

/-- `SingleAttemptSuccess`; the etag is the manifest that was read.  `floorChecked` says whether
    the post-create re-read succeeded (the source counts the skips). -/
structure CommitSuccess where
  replayed : Bool
  entry : LogEntry
  currentEtag : CurrentJson
  classAOps : Nat
  floorChecked : Bool

/-- What step 3 found: the slot to create and the window read on the way, or the row to replay. -/
def findSlot (c : Collection) (input : CommitInput) (current : CurrentJson) :
    Task (Except LogEntry (Nat × List LogEntry)) :=
  match input.insertGuard with
  | none => do
    let tail ← findLogTail c (max current.logSeqStart current.tailHint)
    .ret (.ok (tail, []))
  | some guard => do
    let folded ← readFoldedInsertWindow c guard.absentBelowSeq current.logSeqStart
    let (tail, entries) ← probeTailFrom c .guard (max guard.absentBelowSeq current.logSeqStart)
    let window := folded ++ entries
    match ← Task.ofExcept (decideInsertTarget window input guard) with
    | some replayed => .ret (.error replayed)
    | none => .ret (.ok (tail, window))

/-- Steps 5a and 5b: what happens once the entry is at its slot. -/
def afterCreate (cfg : WriterConfig) (c : Collection) (input : CommitInput)
    (current : CurrentJson) (markers : Nat) (entry : LogEntry) : Task CommitSuccess := do
  let checked ← assertCommitAboveDeleteFloor c entry.seq input.docId
  let stale ← cleanupStaleIndexKeysBestEffort cfg input entry.seq
  .ret ⟨false, entry, current, 1 + (markers + stale), checked⟩

/-- Step 2: the optional integrity walk, whose entries are discarded. -/
def walkLog (cfg : WriterConfig) (c : Collection) (current : CurrentJson) : Task Unit :=
  if cfg.verifyLogIntegrityOnCommit then
    (walkLogRange c .tailFind current.logSeqStart current.tailHint).bind fun _ => .ret ()
  else .ret ()

/-- `#singleAttemptCommit`. -/
def singleAttemptCommit (cfg : WriterConfig) (c : Collection) (session : Nat)
    (input : CommitInput) : Task CommitSuccess := do
  let current ← readOrProvision c
  walkLog cfg c current
  match ← findSlot c input current with
  | .error replayed => .ret ⟨true, replayed, current, 0, false⟩
  | .ok (seq, window) =>
    let commitNowMs ← Task.now
    let markers ← putMarkers cfg input
    match ← createLoop c session commitNowMs input logForwardProbeCap window seq with
    | .replayed entry => .ret ⟨true, entry, current, 0, false⟩
    | .committed entry => afterCreate cfg c input current markers entry

/-- `Writer.commit`. -/
def commit (cfg : WriterConfig) (c : Collection) (session : Nat) (input : CommitInput) :
    Task CommitSuccess := do
  Task.ofExcept (input.precheck cfg)
  singleAttemptCommit cfg c session input

end Baerly
