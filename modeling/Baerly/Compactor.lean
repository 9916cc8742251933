import Baerly.Coordination.Manifest
import Baerly.LogTail

/-
  `compact` (`server/src/compactor.ts`): fold a prefix of the live log into a new snapshot and
  publish it, or checkpoint a tail probe that ran out of budget.

  The manifest CAS names the version the fold STARTED from, so a compactor whose entries were
  retired under it, or that lost to another one, publishes nothing; the snapshot file it wrote
  stays as an orphan.
-/

namespace Baerly

open Async

/-- `DEFAULT_MIN_TO_COMPACT`. -/
def defaultMinToCompact : Nat := 100

/-- `CompactOptions` with the internal seam; an absent cap or ceiling is `none`. -/
structure CompactOptions where
  minEntriesToCompact : Option Nat
  maxEntriesPerRun : Option Nat
  maxTailProbeGets : Option Nat
  ceilingBytes : Option Nat
  ceilingEntries : Option Nat
  knownTail : Option Nat

/-- Why `written` is false. -/
inductive SkippedReason where
  | belowMinThreshold | currentJsonMissing | casLost | deferred | probeBudgetCheckpointed
  deriving DecidableEq

/-- Which ceiling a deferred fold tripped. -/
inductive Dimension where
  | bytes | rows
  deriving DecidableEq

/-- `CompactResult`. -/
structure CompactResult where
  written : Bool
  skippedReason : Option SkippedReason
  /-- The tripped ceiling with the rebuilt snapshot's bytes and rows. -/
  deferral : Option (Dimension × Nat × Nat)
  previousSnapshotKey : Option Key
  newSnapshotKey : Option Key
  logSeqStartBefore : Nat
  logSeqStartAfter : Nat
  entriesFolded : Nat

/-- A run that did not advance the floor. -/
def CompactResult.skipped (reason : SkippedReason) (previous : Option Key) (start : Nat) :
    CompactResult where
  written := false
  skippedReason := some reason
  deferral := none
  previousSnapshotKey := previous
  newSnapshotKey := none
  logSeqStartBefore := start
  logSeqStartAfter := start
  entriesFolded := 0

/-- `a <= ceiling`, where an absent ceiling is infinite. -/
def withinCeiling (a : Nat) (ceiling : Option Nat) : Bool :=
  ceiling.all fun c => a ≤ c

/-- The checks of `loadSnapshotAsMap`: the body must carry the hash its key names, and the
    collection. -/
def decodeSnapshot (codec : Codec) (key : Key) (expectedCollection : JsString)
    (body : SnapshotBody) : Except Err Rows :=
  let actualHash := codec.snapshotHash body
  if actualHash ≠ snapshotHashOfKey key then
    .error (.mk .internal (s!"compact: snapshot {showKey key} body hash mismatch (got " ++
      s!"{showKey actualHash}); protocol violation"))
  else if body.collection ≠ expectedCollection then
    .error (.mk .invalidResponse (s!"compact: snapshot {showKey key} carries collection " ++
      s!"{showKey body.collection}, expected {showKey expectedCollection}"))
  else .ok (loadDocs body.docs)

/-- `loadSnapshotAsMap`. -/
def loadSnapshotAsMap (codec : Codec) (key : Key) (expectedCollection : JsString) : Task Rows := do
  match ← Task.getSnapshot key with
  | none => .throw (.mk .internal
      s!"compact: snapshot pointer {showKey key} resolves to no body; protocol violation")
  | some body => Task.ofExcept (decodeSnapshot codec key expectedCollection body)

/-- The fold base: the rows of the manifest's snapshot, or none. -/
def loadBase (codec : Codec) (c : Collection) (current : CurrentJson) : Task Rows :=
  match current.snapshot with
  | none => .ret InsMap.empty
  | some key => loadSnapshotAsMap codec key c.collectionName

/-- A conditional manifest write of `compact` itself: `true` when it landed, `false` when it
    lost the race. -/
def publish (pub : Publisher) (expected next : CurrentJson) : Task Bool := do
  match ← Prog.attempt (Task.write (.casCurrent pub expected next)) with
  | .ok _ => .ret true
  | .error e => if e.isWriteConflict then .ret false else .throw e

/-- The checkpoint a budgeted probe leaves behind. -/
def CurrentJson.checkpoint (current : CurrentJson) (discoveredTail : Nat) : CurrentJson :=
  { current with tailHint := max current.tailHint discoveredTail }

/-- `Math.round(sum / count)` of the folded slice. -/
def meanFoldedBytes (codec : Codec) (folded : List LogEntry) : Nat :=
  let sum := (folded.map codec.entryBytes).sum
  (2 * sum + folded.length) / (2 * folded.length)

/-- Step 7 of `compact`: the version that installs a new snapshot. -/
def CurrentJson.folded (current : CurrentJson) (codec : Codec) (newKey : Key) (foldEnd : Nat)
    (discoveredTail : Nat) (body : SnapshotBody) (rows : Nat) (slice : List LogEntry) :
    CurrentJson :=
  { current with
    snapshot := some newKey
    logSeqStart := foldEnd
    tailHint := max current.tailHint discoveredTail
    snapshotBytes := codec.snapshotBytes body
    snapshotRows := rows
    meanEntryBytes :=
      if slice = [] then some (current.meanEntryBytes.getD 0)
      else some (meanFoldedBytes codec slice) }

/-- The tail probe of a run: `(discovered tail, is it exact)`. -/
def compactProbe (c : Collection) (opts : CompactOptions) (probeFloor : Nat) :
    Task (Nat × Bool) :=
  match opts.maxTailProbeGets with
  | none => do
    let (tail, _) ← probeTailFrom c .fold probeFloor
    .ret (tail, true)
  | some cap => do
    match ← probeTailChunk .fold probeFloor cap with
    | .exact tail _ => .ret (tail, true)
    | .atLeast bound _ => .ret (bound, false)

/-- Steps 5 to 7: build the snapshot, check the ceilings, PUT it, publish it. -/
def compactPublish (codec : Codec) (c : Collection) (opts : CompactOptions)
    (current : CurrentJson) (discoveredTail : Nat) (base : Rows) (applied : Nat)
    (fetched : List LogEntry) : Task CompactResult := do
  let start := current.logSeqStart
  let foldEnd := start + applied
  let body : SnapshotBody :=
    { minSeq := 0, maxSeq := foldEnd, collection := c.collectionName, docs := sortedDocs base }
  let bytes := codec.snapshotBytes body
  if !(withinCeiling bytes opts.ceilingBytes && withinCeiling base.size opts.ceilingEntries) then
    let dimension := if withinCeiling bytes opts.ceilingBytes then .rows else .bytes
    .ret { CompactResult.skipped .deferred current.snapshot start with
      deferral := some (dimension, bytes, base.size) }
  else
    let newKey ← Task.ofExcept
      (snapshotKey c.collectionPrefix 0 foldEnd (codec.snapshotHash body))
    let _ ← Task.write (.putSnapshot newKey body)
    let next := current.folded codec newKey foldEnd discoveredTail body base.size
      (fetched.take applied)
    Task.ofExcept (assertCurrentJsonTransition c.currentJsonKey current next)
    if ← publish .fold current next then
      .ret { written := true, skippedReason := none, deferral := none,
             previousSnapshotKey := current.snapshot, newSnapshotKey := some newKey,
             logSeqStartBefore := start, logSeqStartAfter := foldEnd, entriesFolded := applied }
    else
      .ret { CompactResult.skipped .casLost current.snapshot start with
        newSnapshotKey := some newKey, entriesFolded := applied }

/-- Steps 2 to 4: load the base, fetch the range, apply it up to the row ceiling. -/
def compactFold (codec : Codec) (c : Collection) (opts : CompactOptions) (current : CurrentJson)
    (discoveredTail : Nat) : Task CompactResult := do
  let start := current.logSeqStart
  let foldEnd := match opts.maxEntriesPerRun with
    | some m => min discoveredTail (start + m)
    | none => discoveredTail
  let base ← loadBase codec c current
  let fetched ← walkLogRange c .fold start foldEnd
  let (base', applied) := foldUpTo c.collectionName opts.ceilingEntries base 0 fetched
  if applied = 0 ∧ fetched ≠ [] then
    .ret { CompactResult.skipped .deferred current.snapshot start with
      deferral := some (.rows, current.snapshotBytes, base'.size) }
  else compactPublish codec c opts current discoveredTail base' applied fetched

/-- `compact`.  The integer checks of the option seam hold by type, except that a probe budget
    must be positive. -/
def compact (codec : Codec) (c : Collection) (opts : CompactOptions) : Task CompactResult :=
  if opts.maxTailProbeGets = some 0 then
    .throw (.mk .invalidConfig
      s!"compact({showKey c.collectionName}): maxTailProbeGets must be a positive integer, got 0")
  else do
  match ← readCurrentJson c with
  | none => .ret (CompactResult.skipped .currentJsonMissing none 0)
  | some current =>
    let start := current.logSeqStart
    let probeFloor := max (max start current.tailHint) (opts.knownTail.getD 0)
    let (discoveredTail, tailIsExact) ← compactProbe c opts probeFloor
    if discoveredTail - start < opts.minEntriesToCompact.getD defaultMinToCompact then
      if tailIsExact then
        .ret (CompactResult.skipped .belowMinThreshold current.snapshot start)
      else
        let checkpoint := current.checkpoint discoveredTail
        Task.ofExcept (assertCurrentJsonTransition c.currentJsonKey current checkpoint)
        if ← publish .checkpoint current checkpoint then
          .ret (CompactResult.skipped .probeBudgetCheckpointed current.snapshot start)
        else .ret (CompactResult.skipped .casLost current.snapshot start)
    else compactFold codec c opts current discoveredTail

end Baerly
