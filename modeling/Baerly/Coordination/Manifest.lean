import Baerly.Storage

/-
  Reading and publishing `current.json` (`protocol/src/coordination/current-json.ts`).

  Four entry points: read, create-only, read-modify-write under `If-Match`, and the two-round-trip
  fence claim.  A version is its own etag: the `If-Match` of a write names the content that was
  read.
-/

namespace Baerly

open Async

/-- `translateCasError`: `WriteConflict` keeps its code, other `BaerlyError`s pass through, and
    anything else — an abort included — becomes `InvalidResponse`. -/
def translateCasError (c : Collection) : Err → Err
  | .baerly .writeConflict m _ _ => .mk .writeConflict
      s!"current.json CAS lost at {showKey c.currentJsonKey}: {m}"
  | .baerly code m id na => .baerly code m id na
  | .abort => .mk .invalidResponse
      s!"current.json write at {showKey c.currentJsonKey} failed: AbortError"
  | .other m => .mk .invalidResponse
      s!"current.json write at {showKey c.currentJsonKey} failed: {m}"

/-- `readCurrentJson`: fetch, then run the single-state guard. -/
def readCurrentJson (c : Collection) : Task (Option CurrentJson) := do
  match ← Task.getCurrent with
  | none => .ret none
  | some body =>
    let json ← Task.ofExcept (assertCurrentJson c.currentJsonKey body.toJson)
    .ret (some json)

/-- A conditional write of the manifest, with its errors translated. -/
def writeCurrent (c : Collection) (r : Req) : Task (Option JsString) :=
  (Task.write r).tryCatch fun e => .throw (translateCasError c e)

/-- `createCurrentJson`. -/
def createCurrentJson (c : Collection) (initial : CurrentJson) : Task CurrentJson := do
  let _ ← Task.ofExcept (assertCurrentJson c.currentJsonKey initial.toJson)
  let _ ← writeCurrent c (.createCurrent initial)
  .ret initial

/-- The manifest `casUpdateCurrentJson` and `claimWriter` refuse to invent. -/
def missingManifest (c : Collection) : Err :=
  .mk .invalidResponse
    s!"current.json at {showKey c.currentJsonKey} does not exist; use createCurrentJson first"

/-- `casUpdateCurrentJson`: the mutator may itself refuse, and `captured` is what its closure
    keeps of the version it ran on. -/
def casUpdateCurrentJson {α : Type} (c : Collection) (pub : Publisher)
    (mutator : CurrentJson → Except Err (CurrentJson × α)) : Task (CurrentJson × α) := do
  match ← readCurrentJson c with
  | none => .throw (missingManifest c)
  | some existing =>
    let (next, captured) ← Task.ofExcept (mutator existing)
    let _ ← Task.ofExcept (assertCurrentJson c.currentJsonKey next.toJson)
    Task.ofExcept (assertCurrentJsonTransition c.currentJsonKey existing next)
    let _ ← writeCurrent c (.casCurrent pub existing next)
    .ret (next, captured)

/-- The first write of `claimWriter`: bump the epoch, claim time unknown. -/
def CurrentJson.provisionalClaim (json : CurrentJson) (owner : JsString) : CurrentJson :=
  { json with writerFence :=
    { epoch := json.writerFence.epoch + 1, owner, claimedAt := [],
      leaseUntil := json.writerFence.leaseUntil } }

/-- The second write of `claimWriter`: stamp the server's clock. -/
def CurrentJson.stampedClaim (json : CurrentJson) (date : JsString) : CurrentJson :=
  { json with writerFence := { json.writerFence with claimedAt := date } }

/-- `claimWriter`; the second write is skipped when the server surfaced no date. -/
def claimWriter (c : Collection) (owner : JsString) : Task CurrentJson := do
  match ← readCurrentJson c with
  | none => .throw (missingManifest c)
  | some existing =>
    let provisional := existing.provisionalClaim owner
    Task.ofExcept (assertCurrentJsonTransition c.currentJsonKey existing provisional)
    match ← writeCurrent c (.casCurrent .claim existing provisional) with
    | none => .ret provisional
    | some date =>
      let stamped := provisional.stampedClaim date
      Task.ofExcept (assertCurrentJsonTransition c.currentJsonKey provisional stamped)
      let _ ← writeCurrent c (.casCurrent .claim provisional stamped)
      .ret stamped

end Baerly
