import Baerly.Adapters
import Baerly.Lib.Simulation
import Baerly.System

/-
  The running system one level down: the calls of `Baerly.System` over an adapter and its requests.

  PROGRAM: a write opens a transfer, the `retryStorageCall` of one `put` or `delete`.  A transfer sends
  one request at a time.  The store serves a request at most once, at any time, also long after the
  client gave up on it; the client hears of its LAST request whatever is true of that request, and the
  loop then ends the transfer or sends another.  A call that awaits the write gets what its transfer
  ended with.

  Reads are atomic, as they are in `Baerly.Storage`; their retries leave no trace.  The wait between two
  requests is the time until the next step.
-/

namespace Baerly

open Async

/-! ## The loop, turn by turn -/

/-- What one turn of the loop in `retryStorageCall` decides. -/
inductive Turn (α : Type) where
  | stop (r : Except Err α)
  | again (left : Nat) (uncertain : Bool)

/-- One turn, with `left` retries after this attempt. -/
def retryTurn {α : Type} (conditionalCreate : Bool) (left : Nat) (uncertain : Bool) :
    Except Rejection α → Turn α
  | .ok a => .stop (.ok a)
  | .error r =>
    if r.isPermanent then .stop (.error (permanentFailure conditionalCreate uncertain r.error))
    else
      match left with
      | 0 => .stop (.error (lastFailure conditionalCreate (uncertain || !r.isThrottled) r.error))
      | left + 1 => .again left (uncertain || !r.isThrottled)

/-- What a call is rejected with when its `retries` are no budget. -/
def retriesRefused (N : NumberText) (retries : Option JsNumber) : Err :=
  .mk .invalidConfig ("storage retries must be a non-negative integer, got " ++
    showKey ((retries.map N.text).getD []))

/-- How the loop goes on. -/
def Turn.andThen {α : Type} (loop : Nat → Bool → Except Err α) : Turn α → Except Err α
  | .stop r => r
  | .again left uncertain => loop left uncertain

/-! ## Transfers -/

/-- One request on its way. -/
structure Sending where
  /-- Whether the store served it, and then whether its precondition held. -/
  served : Option Bool
  /-- It will never be served. -/
  turnedAway : Bool
  deriving DecidableEq

/-- A request that just left. -/
def Sending.fresh : Sending := ⟨none, false⟩

/-- How far a transfer got. -/
inductive Progress where
  | trying (left : Nat) (uncertain : Bool)
  | ended (r : Except Err (Option JsString))

/-- The `retryStorageCall` of one write. -/
structure Transfer (A : Adapter) where
  owner : Nat
  req : Req
  /-- Its requests; the client waits for the last one. -/
  sendings : List Sending
  /-- What came of those before. -/
  heard : List A.Heard
  progress : Progress

namespace Transfer

variable {A : Adapter}

/-- Some request of it took effect. -/
def landed (x : Transfer A) : Bool := x.sendings.any (·.served = some true)

/-- Some request of it found its precondition false. -/
def refused (x : Transfer A) : Bool := x.sendings.any (·.served = some false)

/-- A transfer begins; an adapter whose `retries` are refused sends nothing. -/
def begin (A : Adapter) (N : NumberText) (owner : Nat) (r : Req) : Transfer A :=
  match retryBudget ⟨A.retries, r.conditionalCreate⟩ with
  | some budget => ⟨owner, r, [.fresh], [], .trying budget false⟩
  | none => ⟨owner, r, [], [], .ended (.error (retriesRefused N A.retries))⟩

/-- The store served request `j`. -/
def serve (x : Transfer A) (j : Nat) (applied : Bool) : Transfer A :=
  { x with sendings := x.sendings.modify j fun s => { s with served := some applied } }

/-- The client heard of its last request. -/
def hear (x : Transfer A) (heard : A.Heard) (turnedAway : Bool) (progress : Progress)
    (next : List Sending) : Transfer A :=
  { x with
    sendings := (x.sendings.modify (x.sendings.length - 1) fun s =>
      { s with turnedAway := turnedAway }) ++ next
    heard := x.heard ++ [heard]
    progress }

end Transfer

/-! ## The machine -/

/-- The bucket, and the transfers over it. -/
structure Wire (A : Adapter) where
  bucket : World
  transfers : List (Transfer A)

namespace Wire

variable {A : Adapter}

/-- A bucket nobody has written to. -/
def empty (A : Adapter) : Wire A := ⟨World.empty, []⟩

/-- The writes that were started, for telling whether two of them collide. -/
def begun (w : Wire A) : World :=
  { w.bucket with net := w.transfers.map fun x => ⟨x.owner, x.req, false, false, false⟩ }

def setTransfer (w : Wire A) (i : Nat) (x : Transfer A) : Wire A :=
  { w with transfers := w.transfers.set i x }

end Wire

/-- What the client may hear of a request. -/
def Verdict.admits (verdict : Verdict) (s : Sending) : Bool :=
  match verdict with
  | .applied => s.served = some true
  | .refused => s.served = some false
  | .turnedAway => s.served = none
  | .unknown => true

/-- A step of the network: the store serves request `j` of transfer `i`, or the client hears of the
    request it waits for. -/
inductive WireStep (A : Adapter) where
  | serve (i j : Nat)
  | hear (i : Nat) (heard : A.Heard)

variable (A : Adapter) (N : NumberText) (c : Collection)

/-- The store serves a request, now. -/
def serveStep (i j : Nat) (w : Wire A) : Option (Wire A) :=
  match w.transfers[i]? with
  | some x =>
    match x.sendings[j]? with
    | some s =>
      if s.served.isSome ∨ s.turnedAway then none
      else
        match applyReq w.bucket x.req with
        | some bucket => some ({ w with bucket }.setTransfer i (x.serve j true))
        | none => some (w.setTransfer i (x.serve j false))
    | none => none
  | none => none

/-- The client of a transfer hears of its last request, and the loop takes its turn. -/
def hearStep (i : Nat) (heard : A.Heard) (w : Wire A) : Option (Wire A) :=
  match w.transfers[i]? with
  | some x =>
    match x.progress, x.sendings.getLast? with
    | .trying left uncertain, some s =>
      let verdict := A.verdict x.req heard
      if verdict.admits s then
        let turnedAway := decide (verdict = .turnedAway)
        match retryTurn x.req.conditionalCreate left uncertain (A.attempt c x.req heard) with
        | .stop r =>
          some (w.setTransfer i (x.hear heard turnedAway (.ended (r.bind (A.settle c x.req))) []))
        | .again left uncertain =>
          some (w.setTransfer i (x.hear heard turnedAway (.trying left uncertain) [.fresh]))
      else none
    | _, _ => none
  | none => none

/-- A step of the network. -/
def wireStep : WireStep A → Wire A → Option (Wire A)
  | .serve i j, w => serveStep A i j w
  | .hear i heard, w => hearStep A c i heard w

/-- Answer one request of thread `t`. -/
def wireExec (t : Nat) : (op : Op) → Pick → Wire A → Option (Resp op × Wire A)
  | .send r, .ok, w =>
    if noCollision w.begun r then
      some (w.transfers.length,
        { w with transfers := w.transfers ++ [Transfer.begin A N t r] })
    else none
  | .await id, .ok, w =>
    match w.transfers[id]? with
    | some x =>
      if x.owner ≠ t then none
      else
        match x.progress with
        | .ended r => some (r, w)
        | .trying _ _ => none
    | none => none
  | .send _, _, _ => none
  | .await _, _, _ => none
  | op, pick, w => (exec t op pick w.bucket).map fun p => (p.1, { w with bucket := p.2 })

/-- The deployed system over an adapter. -/
def wired (codec : Codec) : Machine (Wire A) Op Resp Err Call Res where
  Pick := Pick
  exec := wireExec A N
  Env := WireStep A
  env := wireStep A c
  body := body codec c
  accepts call w := deployedAccepts call w.bucket

/-- The pool of the system over an adapter. -/
abbrev WireState := Pool (Wire A) Op Resp Err Call Res

/-- A fresh bucket with nobody running. -/
def WireState.init : WireState A := ⟨Wire.empty A, []⟩

end Baerly
