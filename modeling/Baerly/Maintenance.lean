import Baerly.Capacity
import Baerly.Gc
import Baerly.LogRetention

/-
  Write-tick maintenance: `runBoundedMaintenance` (`server/src/maintenance.ts`) and the dispatch at the
  end of a commit (`server/src/writer.ts`, step 6b).

  PROGRAM: a commit that crosses a cadence boundary, or whose tail has outgrown its snapshot, runs one
  tick: fold, collect garbage, retire log objects, within the budgets of a host profile.  Whatever
  happens to those phases, a tick that is due publishes `tail_hint`, once.

  A rejected phase skips the phases behind it, not the refresh in the `finally`; the local variable
  `tailHintPublished` survives the rejection, so it is passed along by hand (`TickState`).  The ratio
  of the trigger is 1, so it is a comparison of integers.  Counters and warnings leave no trace here.
-/

namespace Baerly

open Async

/-! ## Profiles and gates -/

/-- `MaintenanceProfile`. -/
structure MaintenanceProfile where
  gcInterval : Nat
  gcMaxMarks : Nat
  gcMaxSweeps : Nat
  maxFoldEntriesPerPass : Nat
  maxFoldBytes : Nat
  maxFoldRows : Nat

/-- `MAINTENANCE_PROFILE_CF_FREE`. -/
def maintenanceProfileCfFree : MaintenanceProfile where
  gcInterval := 4
  gcMaxMarks := 20
  gcMaxSweeps := 10
  maxFoldEntriesPerPass := 20
  maxFoldBytes := 512 * 1024
  maxFoldRows := 2048

/-- `MAINTENANCE_MIN_LIVE_BYTES`. -/
def maintenanceMinLiveBytes : Nat := 64 * 1024

/-- `MAINTENANCE_COLD_START_ENTRY_BYTES`. -/
def maintenanceColdStartEntryBytes : Nat := 128

/-- `GC_STARVATION_GUARD`. -/
def gcStarvationGuard : Nat := 4

/-- `WRITE_TICK_MIN_ENTRIES_TO_COMPACT`. -/
def writeTickMinEntriesToCompact : Nat := 50

/-- `MAINTENANCE_WARN_INTERVAL_WRITES`. -/
def maintenanceWarnIntervalWrites : Nat := 1000

/-- `MAINTENANCE_TAIL_HINT_REFRESH_WRITES`. -/
def maintenanceTailHintRefreshWrites : Nat := 128

/-- `phasesPerTick`. -/
inductive PhasesPerTick where
  | single | both
  deriving DecidableEq

/-- `BoundedMaintenanceOptions`. -/
structure BoundedMaintenanceOptions where
  profile : Option MaintenanceProfile
  minEntriesToCompact : Option Nat
  phasesPerTick : Option PhasesPerTick
  gcGraceMillis : Option Nat
  logRetention : RetireOptions

/-- `MaintenanceDispatch`, with the inline dispatcher. -/
structure MaintenanceDispatch where
  disabled : Bool
  maxFoldBytes : Option Nat
  options : Option BoundedMaintenanceOptions

/-- `resolveFoldCeilings`. -/
def resolveFoldCeilings (profile : Option MaintenanceProfile) (maxFoldBytes : Option Nat) :
    FoldCeilings where
  maxFoldBytes := maxFoldBytes.getD (profile.getD maintenanceProfileCfFree).maxFoldBytes
  maxFoldRows := (profile.getD maintenanceProfileCfFree).maxFoldRows

/-- `crossesGcBoundary`. -/
def crossesGcBoundary (prevSeq nextSeq interval : Nat) : Bool :=
  prevSeq / interval ≠ nextSeq / interval

/-- `estimateTailBytes`. -/
def estimateTailBytes (current : CurrentJson) (observedTail : Nat) : Nat :=
  (observedTail - current.logSeqStart) * current.meanEntryBytes.getD maintenanceColdStartEntryBytes

/-- The tail has outgrown the snapshot: the ratio is at `MAINTENANCE_TARGET_RATIO`. -/
def ratioReached (current : CurrentJson) (observedTail : Nat) : Bool :=
  max current.snapshotBytes maintenanceMinLiveBytes ≤ estimateTailBytes current observedTail

/-- `shouldFireMaintenance`. -/
def shouldFireMaintenance (current : CurrentJson) (prevSeq gcInterval observedTail : Nat) : Bool :=
  crossesGcBoundary prevSeq observedTail gcInterval || ratioReached current observedTail

/-! ## One tick -/

/-- What a tick was called with, resolved, and the manifest it read. -/
structure Tick where
  current : CurrentJson
  prevSeq : Nat
  nextSeq : Nat
  profile : MaintenanceProfile
  ceilings : FoldCeilings
  minEntriesToCompact : Nat
  phasesPerTick : PhasesPerTick
  gcGraceMillis : Option Nat
  logRetention : RetireOptions
  disabled : Bool

/-- The local variable `tailHintPublished`, and for the record how each `tail_hint` write of the tick's
    own ended. -/
structure TickState where
  tailHintPublished : Bool
  refreshes : List Bool

def TickState.init : TickState := ⟨false, []⟩

namespace Tick

variable (t : Tick)

/-- `gate1`. -/
def gate1 : Bool :=
  ratioReached t.current t.nextSeq && t.minEntriesToCompact ≤ t.nextSeq - t.current.logSeqStart

/-- `foldViable`. -/
def foldViable : Bool :=
  isFoldViable t.current.snapshotBytes t.current.snapshotRows t.ceilings

/-- `gcDue`. -/
def gcDue : Bool := crossesGcBoundary t.prevSeq t.nextSeq t.profile.gcInterval

/-- `hardGc`. -/
def hardGc : Bool :=
  crossesGcBoundary t.prevSeq t.nextSeq (t.profile.gcInterval * gcStarvationGuard)

/-- `warnDue`: a collection that has never warned warns on its first deferral. -/
def warnDue : Bool :=
  t.current.lastWarnedSeq.all fun last => maintenanceWarnIntervalWrites ≤ t.nextSeq - last

/-- The options `compact` is called with. -/
def compactOptions : CompactOptions where
  minEntriesToCompact := some t.minEntriesToCompact
  maxEntriesPerRun := some t.profile.maxFoldEntriesPerPass
  maxTailProbeGets := none
  ceilingBytes := some t.ceilings.maxFoldBytes
  ceilingEntries := some t.ceilings.maxFoldRows
  knownTail := some t.nextSeq

/-- `gcOpts`. -/
def gcOptions : RunGcOptions where
  graceMillis := t.gcGraceMillis
  maxMarksPerRun := some t.profile.gcMaxMarks
  maxSweepsPerRun := some t.profile.gcMaxSweeps

/-- `refreshTailHintIfNeeded`.  The flag is set before the CAS, so it counts attempts; a failure is
    swallowed. -/
def refreshTailHintIfNeeded (c : Collection) (stampWarnedSeq : Bool) (s : TickState) :
    Task TickState :=
  if !stampWarnedSeq && (s.tailHintPublished ||
      t.nextSeq - t.current.tailHint < maintenanceTailHintRefreshWrites) then .ret s
  else do
    let outcome ← Prog.attempt
      (casUpdateCurrentJson c .refresh (stampTailHint t.nextSeq stampWarnedSeq))
    .ret ⟨true, s.refreshes ++ [outcome.toBool]⟩

/-- `signalFoldDeferred`. -/
def signalFoldDeferred (c : Collection) (s : TickState) : Task TickState :=
  t.refreshTailHintIfNeeded c t.warnDue s

/-- `runGcAndRefreshTailHint`. -/
def runGcAndRefreshTailHint (c : Collection) (s : TickState) : Task (Except Err Unit × TickState) := do
  match ← Prog.attempt (runGc c t.gcOptions) with
  | .error e => .ret (.error e, s)
  | .ok _ =>
    let s ← t.refreshTailHintIfNeeded c false s
    .ret (.ok (), s)

/-- `retireLogs`: losing the CAS is routine. -/
def retireLogs (c : Collection) (s : TickState) : Task (Except Err Unit × TickState) := do
  match ← Prog.attempt (retireLogRange c t.logRetention) with
  | .ok _ => .ret (.ok (), s)
  | .error e => if e.isWriteConflict then .ret (.ok (), s) else .ret (.error e, s)

/-- Garbage collection, then retirement unless it rejected. -/
def gcAndRetire (c : Collection) (s : TickState) : Task (Except Err Unit × TickState) := do
  match ← t.runGcAndRefreshTailHint c s with
  | (.error e, s) => .ret (.error e, s)
  | (.ok _, s) => t.retireLogs c s

/-- Steps 4 and 5. -/
def gcStep (c : Collection) (s : TickState) : Task (Except Err Unit × TickState) :=
  if t.gcDue then t.gcAndRetire c s else t.retireLogs c s

/-- The fold of step 3, and what follows it. -/
def foldStep (codec : Codec) (c : Collection) (s : TickState) :
    Task (Except Err Unit × TickState) := do
  match ← Prog.attempt (compact codec c t.compactOptions) with
  | .error e => .ret (.error e, s)
  | .ok foldRes =>
    let s : TickState := if foldRes.written then { s with tailHintPublished := true } else s
    let s ← (if foldRes.deferral.isSome then t.signalFoldDeferred c s else .ret s)
    if t.phasesPerTick = .single then .ret (.ok (), s) else t.gcStep c s

/-- The body of the inner `try`. -/
def phases (codec : Codec) (c : Collection) (s : TickState) : Task (Except Err Unit × TickState) :=
  if t.disabled then do
    let s ← t.refreshTailHintIfNeeded c false s
    .ret (.ok (), s)
  else if t.phasesPerTick = .single ∧ t.hardGc then t.gcAndRetire c s
  else if t.gate1 then
    if t.foldViable then t.foldStep codec c s
    else do
      let s ← t.signalFoldDeferred c s
      t.gcStep c s
  else t.gcStep c s

end Tick

/-- What a tick has done, for the record: whether its own manifest read was answered, and how each of
    its `tail_hint` writes ended. -/
structure TickReport where
  read : Bool
  refreshes : List Bool

/-- The tick's own read and its own publication went through. -/
def TickReport.succeeded (report : TickReport) : Bool :=
  report.read && report.refreshes.all id

/-- The tail of the tick: the writer's own, or a probe where there is none. -/
def tickTail (c : Collection) (current : CurrentJson) : Option Nat → Task Nat
  | some observedTail => .ret (max observedTail (max current.logSeqStart current.tailHint))
  | none => do
    let (tail, _) ← probeTailFrom c .fold (max current.logSeqStart current.tailHint)
    .ret tail

/-- `runBoundedMaintenance`: it never rejects. -/
def runBoundedMaintenance (codec : Codec) (c : Collection) (prevSeq : Nat)
    (observedTail maxFoldBytes : Option Nat) (disabled : Bool)
    (options : Option BoundedMaintenanceOptions) : Task TickReport := do
  let profile := (options.bind (·.profile)).getD maintenanceProfileCfFree
  match ← Prog.attempt (readCurrentJson c) with
  | .error _ => .ret ⟨false, []⟩
  | .ok none => .ret ⟨true, []⟩
  | .ok (some current) =>
    match ← Prog.attempt (tickTail c current observedTail) with
    | .error _ => .ret ⟨false, []⟩
    | .ok nextSeq =>
      let t : Tick :=
        { current, prevSeq, nextSeq, profile
          ceilings := resolveFoldCeilings (options.bind (·.profile)) maxFoldBytes
          minEntriesToCompact :=
            (options.bind (·.minEntriesToCompact)).getD writeTickMinEntriesToCompact
          phasesPerTick := (options.bind (·.phasesPerTick)).getD .single
          gcGraceMillis := options.bind (·.gcGraceMillis)
          logRetention := (options.map (·.logRetention)).getD ⟨none, none⟩
          disabled }
      let (_, s) ← t.phases codec c .init
      -- the `finally`: whichever way the phases ended
      let s ← t.refreshTailHintIfNeeded c false s
      .ret ⟨true, s.refreshes⟩

/-! ## The dispatch of a commit -/

/-- `gcInterval` as the dispatch resolves it. -/
def MaintenanceDispatch.gcInterval (maint : Option MaintenanceDispatch) : Nat :=
  ((maint.bind (·.options)).bind (·.profile)).elim maintenanceProfileCfFree.gcInterval
    MaintenanceProfile.gcInterval

/-- `maint?.disabled === true`. -/
def MaintenanceDispatch.isDisabled (maint : Option MaintenanceDispatch) : Bool :=
  maint.any (·.disabled)

/-- `maintenanceDue`, from the manifest the commit read. -/
def maintenanceDue (maint : Option MaintenanceDispatch) (current : CurrentJson)
    (prevSeq observedTail : Nat) : Bool :=
  if MaintenanceDispatch.isDisabled maint then
    maintenanceTailHintRefreshWrites ≤ observedTail - current.tailHint
  else shouldFireMaintenance current prevSeq (MaintenanceDispatch.gcInterval maint) observedTail

/-- Step 6b of a commit that created `log/<seq>.json` after probing `preCommitTail`. -/
def dispatchMaintenance (codec : Codec) (c : Collection) (maint : Option MaintenanceDispatch)
    (current : CurrentJson) (preCommitTail seq : Nat) : Task (Option TickReport) :=
  if maintenanceDue maint current preCommitTail (seq + 1) then do
    let report ← runBoundedMaintenance codec c preCommitTail (some (seq + 1))
      (maint.bind (·.maxFoldBytes)) (MaintenanceDispatch.isDisabled maint) (maint.bind (·.options))
    .ret (some report)
  else .ret none

end Baerly
