import Baerly.Coordination.GcPending
import Baerly.Snapshot
import Baerly.Lib.Interleave

/-
  The bucket, and what a request to it can do (`protocol/src/storage/types.ts`).

  The objects of one collection: `current.json`, the numbered log slots, the snapshot files, the
  GC ledger and the index markers.  Reads and conditional writes are linearizable.  What a client
  cannot control is WHEN a write it sent takes effect, so a write is two requests:

    send r       the request leaves the client and becomes a message
    await id     the client learns an outcome for it, or an error that tells it nothing

  In between, and also long after the client gave up, the store may deliver the message at any
  time, and an adapter that retried may deliver it more than once (`deliver`).  Only a definitive
  rejection (`AccessDenied`, `InvalidConfig`, or a `NetworkError` marked `notApplied`) ends the
  message: it was not applied and never will be.  An `If-Match` is a comparison with the content
  of the version that was read, which admits every run a version tag admits.

  Two ghost fields are never read by a program.  `hist` is the committed sequence: the entry that
  occupied slot `n` when the tail first passed `n`.  `trace` records every successful read with
  what was committed at that moment, for stating properties of a run.
-/

namespace Baerly

open Async

/-! ## Requests -/

/-- On whose behalf a log slot is read. -/
inductive Purpose where
  /-- `runReadRows`, walk and forward probe. -/
  | scan
  /-- The absence check of `runInsert`. -/
  | check
  /-- The insert window of a guarded commit: folded part and forward probe. -/
  | guard
  /-- `findLogTail`. -/
  | tailFind
  /-- `#readLogOccupant`, of a guarded or an unguarded commit. -/
  | occupant (guarded : Bool)
  /-- `#readPreImage`. -/
  | preImage
  /-- `compact`: tail probe and fold range. -/
  | fold
  /-- `pollOnce`: the tail probe. -/
  | feedTail
  /-- `pollOnce`: the fetch of one event. -/
  | feed
  deriving DecidableEq, Repr

/-- A request that changes the bucket. -/
inductive Req where
  /-- `PUT current.json`, `If-None-Match: "*"`. -/
  | createCurrent (initial : CurrentJson)
  /-- `PUT current.json`, `If-Match` of the version read. -/
  | casCurrent (pub : Publisher) (expected next : CurrentJson)
  /-- `PUT log/<seq>.json`, `If-None-Match: "*"`; `guarded` is ghost. -/
  | createLog (seq : Nat) (entry : LogEntry) (guarded : Bool)
  /-- Unconditional `PUT` of a snapshot file. -/
  | putSnapshot (key : Key) (body : SnapshotBody)
  /-- `PUT gc/pending.json`, `If-None-Match: "*"`. -/
  | createPending (initial : GcPending)
  /-- `PUT gc/pending.json`, `If-Match`. -/
  | casPending (expected next : GcPending)
  /-- `PUT` of an index marker, `If-None-Match: "*"`. -/
  | createMarker (key : Key)
  | deleteMarker (key : Key)
  | deleteLog (seq : Nat)
  | deleteSnapshot (key : Key)
  deriving DecidableEq

/-- A request that was sent: by whom, and what the store did with it so far. -/
structure Msg where
  owner : Nat
  req : Req
  /-- Some delivery took effect. -/
  applied : Bool
  /-- Some delivery found its precondition false. -/
  refused : Bool
  /-- Definitively rejected: never delivered again. -/
  void : Bool
  deriving DecidableEq

/-- One successful read.  `tail` and `committed` are what the committed sequence said at that
    moment. -/
inductive Event where
  | readCurrent (t : Nat) (found : Option CurrentJson) (tail : Nat)
  | readLog (t : Nat) (why : Purpose) (seq : Nat) (found committed : Option LogEntry)
  deriving DecidableEq

/-- The thread that read. -/
def Event.reader : Event → Nat
  | .readCurrent t _ _ => t
  | .readLog t _ _ _ _ => t

/-! ## The bucket -/

/-- The state of one collection's keys, the messages in flight, and the ghost record. -/
structure World where
  cur : Option CurrentJson
  log : Nat → Option LogEntry
  snap : Key → Option SnapshotBody
  pending : Option GcPending
  marker : Key → Bool
  net : List Msg
  hist : List LogEntry
  trace : List Event

namespace World

/-- A bucket nobody has written to. -/
def empty : World where
  cur := none
  log := fun _ => none
  snap := fun _ => none
  pending := none
  marker := fun _ => false
  net := []
  hist := []
  trace := []

/-- The committed tail. -/
def tail (w : World) : Nat := w.hist.length

/-- `log_seq_start` of the manifest; a bucket without one folds from `0`. -/
def start (w : World) : Nat :=
  match w.cur with
  | some c => c.logSeqStart
  | none => 0

/-- `tail_hint` of the manifest. -/
def hint (w : World) : Nat :=
  match w.cur with
  | some c => c.tailHint
  | none => 0

/-- `certifiedDeleteFloor` of the manifest. -/
def floor (w : World) : Nat :=
  match w.cur with
  | some c => certifiedDeleteFloor c
  | none => 0

/-- The reads of one thread, oldest first. -/
def eventsOf (t : Nat) (w : World) : List Event :=
  w.trace.filter (·.reader = t)

def record (w : World) (ev : Event) : World :=
  { w with trace := w.trace ++ [ev] }

def setLog (w : World) (n : Nat) (v : Option LogEntry) : World :=
  { w with log := fun k => if k = n then v else w.log k }

def setSnap (w : World) (key : Key) (v : Option SnapshotBody) : World :=
  { w with snap := fun k => if k = key then v else w.snap k }

def setMarker (w : World) (key : Key) (v : Bool) : World :=
  { w with marker := fun k => if k = key then v else w.marker k }

/-- The create that takes slot `n`.  At the tail it commits; below it the slot was retired, and
    the object is a phantom no floor admits. -/
def landLog (w : World) (n : Nat) (e : LogEntry) : World :=
  { w.setLog n (some e) with hist := if n = w.hist.length then w.hist ++ [e] else w.hist }

end World

/-- One delivery of a request; `none` when its precondition is false. -/
def applyReq (w : World) : Req → Option World
  | .createCurrent m => if w.cur = none then some { w with cur := some m } else none
  | .casCurrent _ expected next =>
    if w.cur = some expected then some { w with cur := some next } else none
  | .createLog n e _ => if w.log n = none then some (w.landLog n e) else none
  | .putSnapshot key body => some (w.setSnap key (some body))
  | .createPending p => if w.pending = none then some { w with pending := some p } else none
  | .casPending expected next =>
    if w.pending = some expected then some { w with pending := some next } else none
  | .createMarker key => if w.marker key then none else some (w.setMarker key true)
  | .deleteMarker key => some (w.setMarker key false)
  | .deleteLog n => some (w.setLog n none)
  | .deleteSnapshot key => some (w.setSnap key none)

/-- Replace message `i` in the net. -/
def World.setMsg (w : World) (i : Nat) (m : Msg) : World :=
  { w with net := w.net.set i m }

/-- The store delivers message `i`, now. -/
def deliver (i : Nat) (w : World) : Option World :=
  match w.net[i]? with
  | some m =>
    if m.void then none
    else
      match applyReq w m.req with
      | some w' => some (w'.setMsg i { m with applied := true })
      | none => some (w.setMsg i { m with refused := true })
  | none => none

/-! ## Operations of a program -/

/-- What a program can ask for. -/
inductive Op where
  | getCurrent
  | getLog (why : Purpose) (seq : Nat)
  | getSnapshot (key : Key)
  | getPending
  /-- `storage.list(snapshotDir, {maxKeys})`. -/
  | listSnapshots (maxKeys : Nat)
  | send (r : Req)
  | await (id : Nat)
  /-- `Date.now()`. -/
  | now
  /-- `crypto.randomUUID()`, cut to a generation nonce. -/
  | mintGeneration
  /-- The order in which the members of a `Promise.all` of this size run. -/
  | schedule (n : Nat)
  /-- `signal.aborted`. -/
  | aborted
  deriving DecidableEq

/-- What it gets back.  A write that was acknowledged may carry the server's date. -/
abbrev Resp : Op → Type
  | .getCurrent => Except Err (Option CurrentJson)
  | .getLog _ _ => Except Err (Option LogEntry)
  | .getSnapshot _ => Except Err (Option SnapshotBody)
  | .getPending => Except Err (Option GcPending)
  | .listSnapshots _ => Except Err (List Key)
  | .send _ => Nat
  | .await _ => Except Err (Option JsString)
  | .now => Nat
  | .mintGeneration => JsString
  | .schedule _ => List Nat
  | .aborted => Bool

/-- How the world resolves what a request leaves open. -/
inductive Pick where
  /-- The request succeeds. -/
  | ok
  /-- A write is acknowledged, with or without a server date. -/
  | acked (serverDate : Option JsString)
  /-- A write is rejected because its precondition failed. -/
  | conflict (message : String)
  | fail (e : Err)
  | clock (ms : Nat)
  | nonce (g : JsString)
  | keys (ks : List Key)
  | order (is : List Nat)
  | flag (b : Bool)
  deriving DecidableEq

/-- `Storage.put` contract: these rejections mean no attempt of the call was or will be applied
    (`isDefinitiveCreateRejection`, `isCreateNotApplied`). -/
def Err.isNotApplied : Err → Bool
  | .baerly .accessDenied _ _ _ => true
  | .baerly .invalidConfig _ _ _ => true
  | .baerly .networkError _ _ notApplied => notApplied
  | _ => false

/-- Two snapshot bodies put in one run never collide under the hash in their key. -/
def noCollision (w : World) : Req → Bool
  | .putSnapshot key body => w.net.all fun m =>
    match m.req with
    | .putSnapshot key' body' => key' ≠ key ∨ body' = body
    | _ => true
  | _ => true

/-- Answer one request of thread `t`.  A listing is only ever a hint to its caller, so the model
    lets it return any keys. -/
def exec (t : Nat) : (op : Op) → Pick → World → Option (Resp op × World)
  | .getCurrent, .ok, w => some (.ok w.cur, w.record (.readCurrent t w.cur w.tail))
  | .getCurrent, .fail e, w => some (.error e, w)
  | .getLog why n, .ok, w =>
    some (.ok (w.log n), w.record (.readLog t why n (w.log n) w.hist[n]?))
  | .getLog _ _, .fail e, w => some (.error e, w)
  | .getSnapshot key, .ok, w => some (.ok (w.snap key), w)
  | .getSnapshot _, .fail e, w => some (.error e, w)
  | .getPending, .ok, w => some (.ok w.pending, w)
  | .getPending, .fail e, w => some (.error e, w)
  | .listSnapshots maxKeys, .keys ks, w =>
    if ks.length ≤ maxKeys then some (.ok ks, w) else none
  | .listSnapshots _, .fail e, w => some (.error e, w)
  | .send r, .ok, w =>
    if noCollision w r then
      some (w.net.length, { w with net := w.net ++ [⟨t, r, false, false, false⟩] })
    else none
  | .await id, pick, w =>
    match w.net[id]? with
    | some m =>
      if m.owner ≠ t then none
      else
        match pick with
        | .acked date => if m.applied then some (.ok date, w) else none
        | .conflict message =>
          if m.refused then some (.error (.mk .writeConflict message), w) else none
        | .fail e =>
          if e.isWriteConflict then none
          else if e.isNotApplied then
            if m.applied then none else some (.error e, w.setMsg id { m with void := true })
          else some (.error e, w)
        | _ => none
    | none => none
  | .now, .clock ms, w => some (ms, w)
  | .mintGeneration, .nonce g, w => if generationOk g then some (g, w) else none
  | .schedule n, .order is, w => if is.Perm (List.range n) then some (is, w) else none
  | .aborted, .flag b, w => some (b, w)
  | _, _, _ => none

/-! ## Programs -/

/-- An `async` function of this code base. -/
abbrev Task (α : Type) := Prog Op Resp Err α

namespace Task

/-- A request whose answer may be an error, which is then thrown. -/
def ofExcept {α : Type} : Except Err α → Task α
  | .ok a => .ret a
  | .error e => .throw e

/-- `await storage.get(current.json)`, unparsed. -/
def getCurrent : Task (Option CurrentJson) :=
  .call .getCurrent ofExcept

/-- `await storage.get(log/<seq>.json)`, parsed. -/
def getLog (why : Purpose) (seq : Nat) : Task (Option LogEntry) :=
  .call (.getLog why seq) ofExcept

def getSnapshot (key : Key) : Task (Option SnapshotBody) :=
  .call (.getSnapshot key) ofExcept

def getPending : Task (Option GcPending) :=
  .call .getPending ofExcept

/-- `await storage.list(…)`, drained. -/
def listSnapshots (maxKeys : Nat) : Task (List Key) :=
  .call (.listSnapshots maxKeys) ofExcept

def now : Task Nat :=
  .call .now .ret

def mintGeneration : Task JsString :=
  .call .mintGeneration .ret

def aborted : Task Bool :=
  .call .aborted .ret

/-- `await` a write: send it, then wait for its outcome. -/
def write (r : Req) : Task (Option JsString) :=
  .call (.send r) fun id => .call (.await id) ofExcept

/-- `Promise.all(xs.map(f))`: every element once, in an order nobody controls. -/
def all {α β : Type} (f : α → Task β) (xs : List α) : Task (List (α × β)) :=
  .call (.schedule xs.length) fun order => Prog.gather f (order.filterMap fun i => xs[i]?)

/-- Send every request before awaiting any of them. -/
def sendAll : List Req → Task (List Nat)
  | [] => .ret []
  | r :: rs => .call (.send r) fun id => (sendAll rs).bind fun ids => .ret (id :: ids)

/-- The outcome of a request that was sent. -/
def outcome (id : Nat) : Task (Option JsString) :=
  .call (.await id) ofExcept

/-- `Promise.all` over writes: all of them leave, then `settle` handles each outcome. -/
def writeAll (settle : Task (Option JsString) → Task Unit) (rs : List Req) : Task Unit :=
  (sendAll rs).bind fun ids => (all (fun id => settle (outcome id)) ids).bind fun _ => .ret ()

end Task

end Baerly
