import Baerly.Coordination.Manifest

/-
  `runGc` (`server/src/gc.ts`): mark orphan snapshots, sweep the due ones, merge the ledger.

  A snapshot is written before it is referenced, so "no manifest names it now" is no licence to
  delete it.  The licence is the fold end in its key: strictly below the `log_seq_start` of a
  manifest read AFTER the mark, it can never be published again.
-/

namespace Baerly

open Async

/-- `parseSeqFromCanonicalLogKey`. -/
def parseSeqFromCanonicalLogKey (key collectionPrefix : Key) : Option Nat :=
  let logPrefix := collectionPrefix ++ js "/log/"
  if !logPrefix.isPrefixOf key then none
  else
    let name := key.drop logPrefix.length
    let digits := name.takeWhile isDigit
    if digits ≠ [] ∧ name.drop digits.length = js ".json" then
      let seq := ofDigits digits
      if seq ≤ maxSafeInteger ∧ logObjectKey collectionPrefix seq = key then some seq else none
    else none

/-- `RunGcOptions` with the internal seam; absent caps are unbounded. -/
structure RunGcOptions where
  graceMillis : Option Nat
  maxMarksPerRun : Option Nat
  maxSweepsPerRun : Option Nat

/-- `GC_GRACE_PERIOD_MILLIS`: seven days. -/
def gcGracePeriodMillis : Nat := 7 * 24 * 60 * 60 * 1000

/-- `RunGcResult`. -/
structure RunGcResult where
  markedOrphanSnapshot : Nat
  swept : Nat
  droppedStaleGeneration : Nat
  droppedStillLive : Nat
  pendingDepth : Nat
  deriving DecidableEq

/-- `zeroGcResult`. -/
def zeroGcResult : RunGcResult := ⟨0, 0, 0, 0, 0⟩

/-! ## The ledger -/

/-- `translateCasError` of the ledger. -/
def translatePendingError (key : String) : Err → Err
  | .baerly .writeConflict m _ _ => .mk .writeConflict s!"gc/pending.json CAS lost at {key}: {m}"
  | .baerly code m id na => .baerly code m id na
  | .abort => .mk .invalidResponse s!"gc/pending.json write at {key} failed: AbortError"
  | .other m => .mk .invalidResponse s!"gc/pending.json write at {key} failed: {m}"

/-- `gcPendingKey`. -/
def gcPendingKey (c : Collection) : Key :=
  c.collectionPrefix ++ js "/gc/pending.json"

/-- `readGcPending`. -/
def readGcPending (c : Collection) : Task (Option GcPending) := do
  match ← Task.getPending with
  | none => .ret none
  | some p =>
    Task.ofExcept (assertGcPending (gcPendingKey c) p)
    .ret (some p)

/-- A conditional ledger write, with its errors translated. -/
def writePending (c : Collection) (r : Req) : Task (Option JsString) :=
  (Task.write r).tryCatch fun e =>
    .throw (translatePendingError (showKey (gcPendingKey c)) e)

/-- `casUpdateGcPending`: re-read and re-merge on a lost CAS, a bounded number of times. -/
def casUpdateGcPending (c : Collection) (mutator : GcPending → GcPending) :
    (attempts : Nat) → (lastConflict : Err) → Task GcPending
  | 0, lastConflict => .throw lastConflict
  | attempts + 1, _ => do
    match ← readGcPending c with
    | none => .throw (.mk .writeConflict
        (s!"gc/pending.json at {showKey (gcPendingKey c)} does not exist; it was deleted " ++
          "concurrently, or was never created — see createGcPending"))
    | some existing =>
      let next := mutator existing
      Task.ofExcept (assertGcPending (gcPendingKey c) next)
      match ← Prog.attempt (writePending c (.casPending existing next)) with
      | .ok _ => .ret next
      | .error e => if e.isWriteConflict then casUpdateGcPending c mutator attempts e else .throw e

/-- Step 2 of `runGc`: read the ledger, or create it and cope with a racing creator. -/
def readOrCreatePending (c : Collection) : Task GcPending := do
  match ← readGcPending c with
  | some p => .ret p
  | none =>
    let initial : GcPending := ⟨[], none⟩
    match ← Prog.attempt (writePending c (.createPending initial)) with
    | .ok _ => .ret initial
    | .error e =>
      if e.isWriteConflict then
        match ← readGcPending c with
        | some p => .ret p
        | none => .throw e
      else .throw e

/-! ## Mark and sweep -/

/-- Step 3: mark every listed canonical snapshot that the manifest does not name and the ledger
    does not hold. -/
def markOrphans (c : Collection) (current : CurrentJson) (grace : Nat) (known : List Key) :
    List Key → Task (List GcCandidate)
  | [] => .ret []
  | key :: keys =>
    if some key = current.snapshot ∨
        parseMaxSeqFromCanonicalSnapshotKey key c.collectionPrefix = none ∨ key ∈ known then
      markOrphans c current grace known keys
    else do
      let ms ← Task.now
      let rest ← markOrphans c current grace known keys
      .ret (⟨key, ms + grace, .orphanSnapshot, current.generation⟩ :: rest)

/-- How the sweep gate resolves a candidate. -/
inductive SweepArm where
  | evicted | staleGeneration | rescued | kept
  deriving DecidableEq

/-- The arms of step 4, in order; `fresh` is the manifest re-read for a due snapshot. -/
def judge (c : Collection) (fence : CurrentJson) (fresh : Option CurrentJson)
    (cand : GcCandidate) : SweepArm :=
  if cand.reason = .orphanContent then .evicted
  else if cand.reason = .staleLog ∧
      parseSeqFromCanonicalLogKey cand.key c.collectionPrefix = none then .evicted
  else if cand.reason = .orphanSnapshot ∧
      parseMaxSeqFromCanonicalSnapshotKey cand.key c.collectionPrefix = none then .evicted
  else if cand.generation.getD noGeneration ≠ fence.generation.getD noGeneration then
    .staleGeneration
  else if cand.reason = .orphanSnapshot ∧ some cand.key = fresh.bind (·.snapshot) then .rescued
  else if cand.reason = .staleLog ∧
      (parseSeqFromCanonicalLogKey cand.key c.collectionPrefix).any (fence.logSeqStart ≤ ·) then
    .rescued
  else .kept

/-- The deletion authority of a due candidate: a snapshot needs its fold end strictly below the
    floor of the fresh manifest. -/
def mayDelete (c : Collection) (fresh : Option CurrentJson) (cand : GcCandidate) : Bool :=
  cand.reason ≠ .orphanSnapshot ∨
    (parseMaxSeqFromCanonicalSnapshotKey cand.key c.collectionPrefix).any
      (· < (fresh.map (·.logSeqStart)).getD 0)

/-- The split into `(toSweep, remaining)` of the candidates no arm dropped. -/
def splitDue (c : Collection) (fresh : Option CurrentJson) (nowMs : Nat)
    (maxSweeps : Option Nat) (dropped : List Key) :
    (taken : Nat) → List GcCandidate → List GcCandidate × List GcCandidate
  | _, [] => ([], [])
  | taken, cand :: cands =>
    if cand.key ∈ dropped then splitDue c fresh nowMs maxSweeps dropped taken cands
    else if maxSweeps.all (taken < ·) ∧ cand.dueAt ≤ nowMs ∧ mayDelete c fresh cand then
      let (sweep, rest) := splitDue c fresh nowMs maxSweeps dropped (taken + 1) cands
      (cand :: sweep, rest)
    else
      let (sweep, rest) := splitDue c fresh nowMs maxSweeps dropped taken cands
      (sweep, cand :: rest)

/-- `storage.delete(c.key)`: a canonical log key names a slot, every other swept key a
    snapshot. -/
def sweepRequest (c : Collection) (cand : GcCandidate) : Req :=
  match cand.reason, parseSeqFromCanonicalLogKey cand.key c.collectionPrefix with
  | .staleLog, some seq => .deleteLog seq
  | _, _ => .deleteSnapshot cand.key

/-- Step 5: merge this pass into the latest ledger; losing the CAS is not an error. -/
def recordPass (c : Collection) (pass : GcPass) (remaining : Nat) : Task Nat := do
  match ← Prog.attempt (casUpdateGcPending c (fun latest => mergeGcPending latest pass)
      gcPendingCasMaxAttempts (.mk .writeConflict "")) with
  | .ok updated => .ret updated.candidates.length
  | .error e => if e.isWriteConflict then .ret remaining else .throw e

/-- The sweep of one pass, once the fresh manifest is known. -/
def sweepPass (c : Collection) (opts : RunGcOptions) (current : CurrentJson)
    (fresh : Option CurrentJson) (nowMs : Nat) (pending newCandidates : List GcCandidate) :
    Task RunGcResult := do
  let fence := fresh.getD current
  let cands := pending ++ newCandidates
  let keysOf (arm : SweepArm) := (cands.filter fun x => judge c fence fresh x = arm).map (·.key)
  let dropped := keysOf .staleGeneration ++ keysOf .rescued ++ keysOf .evicted
  let (toSweep, remaining) := splitDue c fresh nowMs opts.maxSweepsPerRun dropped 0 cands
  Task.writeAll (fun p => p.bind fun _ => .ret ()) (toSweep.map (sweepRequest c))
  let sweptAt ← (if toSweep = [] then .ret none
    else Task.now.bind fun ms => .ret (some ms))
  let depth ← recordPass c
    { sweptKeys := toSweep.map (·.key) ++ dropped, newCandidates, lastSweptAt := sweptAt,
      maxCandidates := gcMaxPendingCandidates } remaining.length
  .ret { markedOrphanSnapshot := newCandidates.length, swept := toSweep.length,
         droppedStaleGeneration := (keysOf .staleGeneration).dedup.length,
         droppedStillLive := (keysOf .rescued).dedup.length, pendingDepth := depth }

/-- `runGc`. -/
def runGc (c : Collection) (opts : RunGcOptions) : Task RunGcResult := do
  match ← readCurrentJson c with
  | none => .ret zeroGcResult
  | some current =>
    let pending ← readOrCreatePending c
    let keys ← Task.listSnapshots (opts.maxMarksPerRun.getD maxSafeInteger)
    let grace := opts.graceMillis.getD gcGracePeriodMillis
    let newCandidates ← markOrphans c current grace (pending.candidates.map (·.key)) keys
    let nowMs ← Task.now
    let hasDueSnapshot := (pending.candidates ++ newCandidates).any fun x =>
      x.reason = .orphanSnapshot ∧ x.dueAt ≤ nowMs
    -- re-read as late as possible, and only when a snapshot could be deleted
    let fresh ← (if hasDueSnapshot then readCurrentJson c else .ret none)
    sweepPass c opts current fresh nowMs pending.candidates newCandidates

end Baerly
