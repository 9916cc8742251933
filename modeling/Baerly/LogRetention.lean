import Baerly.Coordination.Manifest

/-
  Advancing the two bounds of the log: `server/src/log-retention.ts` and the `tail_hint` refresh
  of `server/src/maintenance.ts`.

  Retirement publishes the floor FIRST and deletes afterwards: the range it deletes is the one
  computed inside the CAS mutator, from the version the CAS then validates.
-/

namespace Baerly

open Async

/-- `LOG_RETENTION_SEQ_WINDOW`. -/
def logRetentionSeqWindow : Int := 1024

/-- `LOG_RETENTION_MAX_DELETES_PER_TICK`. -/
def logRetentionMaxDeletesPerTick : Int := 20

/-- The options of `retireLogRange`; the seam accepts any integer. -/
structure RetireOptions where
  window : Option Int
  maxDeletes : Option Int

/-- `RetirableRange`: half-open. -/
structure RetirableRange where
  start : Nat
  stop : Nat
  deriving DecidableEq

/-- `computeRetirableRange`. -/
def computeRetirableRange (current : CurrentJson) (opts : RetireOptions) : RetirableRange :=
  let window := opts.window.getD logRetentionSeqWindow
  let maxDeletes := opts.maxDeletes.getD logRetentionMaxDeletesPerTick
  let liveFloor : Int := current.logSeqStart
  let start : Int := certifiedDeleteFloor current
  let boundary := min (liveFloor - window) liveFloor
  { start := certifiedDeleteFloor current
    stop := (max start (min boundary (start + maxDeletes))).toNat }

/-- The range starts at the certified floor and stays below the live one. -/
theorem computeRetirableRange_bounds (current : CurrentJson) (opts : RetireOptions) :
    (computeRetirableRange current opts).start = certifiedDeleteFloor current ∧
    certifiedDeleteFloor current ≤ (computeRetirableRange current opts).stop ∧
    (computeRetirableRange current opts).stop ≤ current.logSeqStart := by
  have hle := certifiedDeleteFloor_le current
  refine ⟨rfl, ?_, ?_⟩
  · simp only [computeRetirableRange]
    omega
  · simp only [computeRetirableRange]
    omega

/-- The mutator of `retireLogRange`: authorize a range on the version being replaced, or abort
    when there is none. -/
def authorizeRetirement (c : Collection) (opts : RetireOptions) (current : CurrentJson) :
    Except Err (CurrentJson × RetirableRange) :=
  let authorized := computeRetirableRange current opts
  if authorized.stop ≤ authorized.start then
    .error (.mk .writeConflict (s!"retireLogRange: {showKey c.currentJsonKey} authorizes no " ++
      "retirable range at CAS time; a concurrent writer moved log_seq_start"))
  else .ok ({ current with logDeleteFloor := some authorized.stop }, authorized)

/-- `retireLogRange`; resolves with the number of DELETEs issued. -/
def retireLogRange (c : Collection) (opts : RetireOptions) : Task Nat := do
  match ← readCurrentJson c with
  | none => .ret 0
  | some read =>
    -- advisory gate only: the authorized range is the mutator's
    let gate := computeRetirableRange read opts
    if gate.stop ≤ gate.start then .ret 0
    else
      let (json, range) ← casUpdateCurrentJson c .retire (authorizeRetirement c opts)
      if logDeleteFloorOf json ≠ range.stop then
        .throw (.mk .internal (s!"retireLogRange: {showKey c.currentJsonKey}: the floor CAS " ++
          s!"published {logDeleteFloorOf json} against authorized end {range.stop}; refusing to " ++
          "DELETE a range the CAS never validated"))
      else
        let doomed := (List.range' range.start (range.stop - range.start)).map Req.deleteLog
        Task.writeAll (fun p => p.bind fun _ => .ret ()) doomed
        .ret (range.stop - range.start)

/-- The mutator of `refreshTailHintIfNeeded`. -/
def stampTailHint (nextSeq : Nat) (stampWarnedSeq : Bool) (current : CurrentJson) :
    Except Err (CurrentJson × Unit) :=
  .ok ({ current with
    tailHint := max current.tailHint nextSeq
    lastWarnedSeq := if stampWarnedSeq then some nextSeq else current.lastWarnedSeq }, ())

/-- The publication of `refreshTailHintIfNeeded`, once it is due: every failure is swallowed. -/
def refreshTailHint (c : Collection) (nextSeq : Nat) (stampWarnedSeq : Bool) : Task Unit :=
  ((casUpdateCurrentJson c .refresh (stampTailHint nextSeq stampWarnedSeq)).bind
    fun _ => .ret ()).tryCatch fun _ => .ret ()

end Baerly
