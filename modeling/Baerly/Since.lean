import Baerly.Coordination.Manifest
import Baerly.DocId
import Baerly.LogTail

/-
  The change feed: `server/src/http/since.ts`, its reads in `server/src/db.ts`, the cursor codec of
  `protocol/src/cursor.ts`, and the poll loop of `client/src/react/subscription-pool.ts`.

  PROGRAM: one poll reads the manifest, finds the tail, and fetches the slots after the cursor one
  by one.  A long poll repeats that until something came or time is up; a subscription is a run
  of long polls, each from the cursor of the one before.

  A cursor is held decoded: `none` is `""`, otherwise the generation and the lsn.
-/

namespace Baerly

open Async

/-- A decoded cursor; `none` is the empty string. -/
abbrev Cursor := Option (JsString × Lsn)

/-- `GENERATION_RE = /^(?:[0-9a-f]+|-)$/`. -/
def cursorGenerationOk (g : JsString) : Bool :=
  generationOk g ∨ g = noGeneration

/-- Print a cursor inside an error message. -/
def showCursor : Cursor → String
  | none => "\"\""
  | some (g, lsn) => quote g ++ s!".{lsn.time}_{lsn.session}_{lsn.seq}"

/-- `decodeCursor`; an lsn here has the right shape. -/
def decodeCursor : Cursor → Except Err Unit
  | none => .ok ()
  | some (g, lsn) =>
    if cursorGenerationOk g then .ok ()
    else .error (.mk .schemaError ("cursor: invalid shape (expected a cursor returned by a prior " ++
      "SinceResponse); got " ++ showCursor (some (g, lsn))))

/-- `DEFAULT_MAX_EVENTS`. -/
def defaultMaxEvents : Nat := 1024

/-- `assertAtOrAboveLogFloor`. -/
def assertAtOrAboveLogFloor (seam : String) (seq : Nat) (current : CurrentJson) :
    Except Err Unit :=
  let floor := current.logSeqStart
  let storedDeleteFloor := logDeleteFloorOf current
  let deleteFloor := certifiedDeleteFloor current
  if 0 < deleteFloor ∧ seq < deleteFloor then
    let clamped := if storedDeleteFloor = deleteFloor then ""
      else s!" (stored log_delete_floor={storedDeleteFloor}, clamped to log_seq_start={floor})"
    .error (.mk .internal (s!"{seam}: seq {seq} is below the certified delete floor " ++
      s!"{deleteFloor}{clamped}; the log object is GONE — it has been reclaimed, not merely made " ++
      "reclaimable"))
  else if seq < floor then
    .error (.mk .internal (s!"{seam}: seq {seq} is below the fold floor log_seq_start={floor}; " ++
      "entries beneath the floor are folded into the snapshot and may already be reclaimed"))
  else .ok ()

/-- What one poll resolves with; `head` is the manifest it read, kept for stating properties. -/
structure Polled where
  events : List LogEntry
  generation : Option JsString
  head : Option CurrentJson

/-- `db.probeLogTail`. -/
def probeLogTail (c : Collection) (hint : Nat) (current : CurrentJson) : Task Nat := do
  Task.ofExcept (assertAtOrAboveLogFloor "probeLogTail" hint current)
  let (tail, _) ← probeTailFrom c .feedTail hint
  .ret tail

/-- `db.getLogEntry`. -/
def getLogEntry (seq : Nat) (current : CurrentJson) : Task (Option LogEntry) := do
  Task.ofExcept (assertAtOrAboveLogFloor "getLogEntry" seq current)
  Task.getLog .feed seq

/-- Where a poll starts to fetch: after the cursor, or at `log_seq_start`. -/
def feedStart (current : CurrentJson) : Cursor → Except Err Nat
  | none => .ok current.logSeqStart
  | some (generation, lsn) =>
    if generation ≠ current.generation.getD noGeneration then
      .error (.mk .schemaError ("cursor " ++ showCursor (some (generation, lsn)) ++ " was minted in " ++
        "a generation that no longer exists (the collection has been truncated and restored); " ++
        "re-bootstrap from a snapshot read before resuming"))
    else if lsn.seq < current.logSeqStart then
      .error (.mk .schemaError ("cursor " ++ showCursor (some (generation, lsn)) ++ " points to a " ++
        s!"log entry that has been folded into a snapshot (log_seq_start={current.logSeqStart}); " ++
        "re-bootstrap from a snapshot read before resuming"))
    else .ok (lsn.seq + 1)

/-- The fetch loop of `pollOnce`: one GET after the other, over what the sweeper took. -/
def fetchEvents (current : CurrentJson) : (count : Nat) → (seq : Nat) → Task (List LogEntry)
  | 0, _ => .ret []
  | count + 1, seq => do
    let got ← getLogEntry seq current
    let rest ← fetchEvents current count (seq + 1)
    match got with
    | none => .ret rest
    | some entry => .ret (entry :: rest)

/-- `pollOnce`. -/
def pollOnce (c : Collection) (cursor : Cursor) : Task Polled := do
  Task.ofExcept (decodeCursor cursor)
  match ← readCurrentJson c with
  | none => .ret ⟨[], none, none⟩
  | some json =>
    let tail ← probeLogTail c (max json.logSeqStart json.tailHint) json
    let startSeq ← Task.ofExcept (feedStart json cursor)
    let endSeq := min tail (startSeq + defaultMaxEvents)
    let events ← fetchEvents json (endSeq - startSeq) startSeq
    .ret ⟨events, json.generation, some json⟩

/-- `nextCursor`: the last event's lsn under the poll's generation; a poll without events keeps
    the cursor it was asked with. -/
def nextCursor (cursor : Cursor) (polled : Polled) : Cursor :=
  match polled.events.getLast? with
  | some e => some (polled.generation.getD noGeneration, e.lsn)
  | none => cursor

/-- `SinceResponse`, with the polls it took, kept for stating properties. -/
structure SinceResponse where
  events : List LogEntry
  next : Cursor
  polls : List Polled

/-- The `tick` loop of `longPollSince`.  Its length is up to the clock, so it is bounded by a
    number of ticks and resolves as it does at the deadline when they are used up.  A poll that
    is under way when the signal fires is thrown away, so the abort is taken before it. -/
def tickLoop (c : Collection) (cursor : Cursor) (deadline : Nat) :
    (ticks : Nat) → List Polled → Task SinceResponse
  | 0, polls => .ret ⟨[], cursor, polls⟩
  | ticks + 1, polls => do
    if ← Task.aborted then .ret ⟨[], cursor, polls⟩
    else
      let polled ← pollOnce c cursor
      if polled.events ≠ [] then
        .ret ⟨polled.events, nextCursor cursor polled, polls ++ [polled]⟩
      else
        let now ← Task.now
        if deadline ≤ now then .ret ⟨[], cursor, polls ++ [polled]⟩
        else tickLoop c cursor deadline ticks (polls ++ [polled])

/-- `longPollSince`. -/
def longPollSince (c : Collection) (timeoutMs ticks : Nat) (cursor : Cursor) :
    Task SinceResponse := do
  Task.ofExcept (decodeCursor cursor)
  let initial ← pollOnce c cursor
  if initial.events ≠ [] then
    .ret ⟨initial.events, nextCursor cursor initial, [initial]⟩
  else
    let start ← Task.now
    tickLoop c cursor (start + timeoutMs) ticks [initial]

/-- The poll loop of a subscription: `calls` long polls in a row, each from the cursor the one
    before returned. -/
def subscribe (c : Collection) (timeoutMs ticks : Nat) : (calls : Nat) → (cursor : Cursor) →
    Task (List SinceResponse)
  | 0, _ => .ret []
  | calls + 1, cursor => do
    let res ← longPollSince c timeoutMs ticks cursor
    let rest ← subscribe c timeoutMs ticks calls res.next
    .ret (res :: rest)

end Baerly
