import Baerly.Errors
import Baerly.Lib.InsMap

/-
  The React subscription pool (`client/src/react/subscription-pool.ts`).

  PROGRAM: signatures share a cached snapshot and one read in flight; tables share one poll loop,
  counted by the attachments that name them.  A poll that reports events re-reads the signatures on
  its table; one that fails for good parks them on its error until somebody refetches.

  A machine with one step for every turn of the event loop: a call from a component, or the
  completion of something awaited.  Objects that are compared by identity, the `AbortController` of
  a read and the record of a poll, are positions in `fetches` and `polls`.  Notifications are left
  out: they hand control to React, which calls back in a later turn.
-/

namespace Baerly

/-! ## Records -/

/-- What a promise rejects with: an `Error`, or something else, of which only the text is used. -/
inductive Raised where
  | error (e : Err)
  | value (text : String)
  deriving DecidableEq, Repr

/-- `toError`. -/
def Raised.toError : Raised → Err
  | .error e => e
  | .value text => .mk .internal text

/-- `isAbortError`. -/
def Raised.isAbortError : Raised → Bool
  | .error .abort => true
  | _ => false

/-- `error instanceof BaerlyError && error.code === "SchemaError"`. -/
def Raised.isSchemaError : Raised → Bool
  | .error (.baerly .schemaError _ _ _) => true
  | _ => false

/-- `isRetriableCode`. -/
def isRetriableCode (code : Code) : Bool := code = .networkError ∨ code = .writeConflict

/-- `error instanceof BaerlyError && !error.retriable`, with the error. -/
def Raised.permanent : Raised → Option Err
  | .error (.baerly code message id notApplied) =>
    if isRetriableCode code then none else some (.baerly code message id notApplied)
  | _ => none

/-- `status` of a snapshot. -/
inductive SnapshotStatus where
  | loading | refreshing | ok | error
  deriving DecidableEq, Repr

/-- `CachedSnapshot`; `undefined` is `none`. -/
structure CachedSnapshot (D : Type) where
  status : SnapshotStatus
  data : Option D
  error : Option Err

/-- `LOADING_SNAPSHOT`. -/
def loadingSnapshot {D : Type} : CachedSnapshot D := ⟨.loading, none, none⟩

/-- `CacheEntry`.  `inFlight` names a fetch; `born` is the number of fetches there were when the
    entry was created, and is not read by the program. -/
structure CacheEntry (D : Type) where
  snapshot : CachedSnapshot D
  hasSuccessfulData : Bool
  chainTables : List JsString
  inFlight : Option Nat
  born : Nat

/-- The entry while read `i` is under way. -/
def CacheEntry.refreshing {D : Type} (entry : CacheEntry D) (i : Nat) : CacheEntry D :=
  { entry with
    inFlight := some i
    snapshot := if entry.hasSuccessfulData then ⟨.refreshing, entry.snapshot.data, none⟩
      else loadingSnapshot }

/-- The entry after a successful read. -/
def CacheEntry.loaded {D : Type} (entry : CacheEntry D) (data : Option D) : CacheEntry D :=
  { entry with snapshot := ⟨.ok, data, none⟩, hasSuccessfulData := true, inFlight := none }

/-- The entry on an error; the data it had stays. -/
def CacheEntry.failed {D : Type} (entry : CacheEntry D) (error : Err) : CacheEntry D :=
  { entry with snapshot := ⟨.error, entry.snapshot.data, some error⟩, inFlight := none }

/-- A read that was dispatched, and whether its controller is aborted. -/
structure Fetch (F : Type) where
  signature : JsString
  fetcher : F
  aborted : Bool
  completed : Bool

/-- Where a poll loop stands: in a request, in the wait before the next one, or out. -/
inductive LoopPhase where
  | polling (requestCursor : JsString)
  | waiting
  | returned
  deriving DecidableEq, Repr

/-- `TablePoll` with its controller, and the variables of its loop. -/
structure TablePoll where
  table : JsString
  refcount : Nat
  aborted : Bool
  cursor : JsString
  terminalError : Option Err
  retryAttempt : Nat
  deadCursorRecoveryPending : Bool
  phase : LoopPhase

/-- What the closure returned by `attach` holds on to. -/
structure Attachment (N : Type) where
  signature : JsString
  tables : List JsString
  notify : N

/-- The maps of the pool, the objects they point to, and the attachments not yet undone. -/
structure PoolState (D F N : Type) where
  cache : InsMap JsString (CacheEntry D)
  subscribersBySignature : InsMap JsString (List N)
  signatureFetchers : InsMap JsString F
  tablePolls : InsMap JsString Nat
  polls : List TablePoll
  fetches : List (Fetch F)
  attachments : List (Attachment N)

namespace PoolState

variable {D F N : Type}

def init : PoolState D F N := ⟨.empty, .empty, .empty, .empty, [], [], []⟩

/-- `getSnapshot`. -/
def getSnapshot (σ : PoolState D F N) (signature : JsString) : CachedSnapshot D :=
  ((σ.cache.get signature).map CacheEntry.snapshot).getD loadingSnapshot

/-! ## Reads -/

/-- An entry of the cache, new or changed. -/
def putEntry (σ : PoolState D F N) (signature : JsString) (entry : CacheEntry D) :
    PoolState D F N :=
  { σ with cache := σ.cache.set signature entry }

/-- `controller.abort()` of a read, if there is one. -/
def abortFetch (σ : PoolState D F N) : Option Nat → PoolState D F N
  | none => σ
  | some i => { σ with fetches := σ.fetches.modify i fun f => { f with aborted := true } }

/-- The terminal error of a table's poll. -/
def terminalErrorOf (σ : PoolState D F N) (table : JsString) : Option Err :=
  (σ.tablePolls.get table).bind fun i => (σ.polls[i]?).bind TablePoll.terminalError

/-- `terminalErrorFor`. -/
def terminalErrorFor (σ : PoolState D F N) (entry : CacheEntry D) : Option Err :=
  entry.chainTables.findSome? σ.terminalErrorOf

/-- `dispatchFetch`, up to the `await`. -/
def dispatchFetch (σ : PoolState D F N) (signature : JsString) (fetcher : F) : PoolState D F N :=
  match σ.cache.get signature with
  | none => σ
  | some entry =>
    match σ.terminalErrorFor entry with
    | some e =>
      if entry.snapshot.status ≠ .error ∨ entry.snapshot.error ≠ some e then
        σ.putEntry signature { entry with snapshot := ⟨.error, entry.snapshot.data, some e⟩ }
      else σ
    | none =>
      let σ := σ.abortFetch entry.inFlight
      let σ := σ.putEntry signature (entry.refreshing σ.fetches.length)
      { σ with fetches := σ.fetches ++ [⟨signature, fetcher, false, false⟩] }

/-- The rest of `dispatchFetch`: read `i` settled. -/
def fetchSettled (σ : PoolState D F N) (i : Nat) (r : Except Raised (Option D)) :
    Option (PoolState D F N) :=
  match σ.fetches[i]? with
  | none => none
  | some fetch =>
    if fetch.completed then none
    else
      let σ := { σ with fetches := σ.fetches.modify i fun f => { f with completed := true } }
      if fetch.aborted then some σ
      else
        match σ.cache.get fetch.signature with
        | none => some σ
        | some live =>
          if live.inFlight ≠ some i then some σ
          else
            match r with
            | .ok data => some (σ.putEntry fetch.signature (live.loaded data))
            | .error raw => some (σ.putEntry fetch.signature (live.failed raw.toError))

/-! ## Reactions to a poll -/

/-- Has the signature a subscriber? -/
def subscribed (σ : PoolState D F N) (signature : JsString) : Bool :=
  ((σ.subscribersBySignature.get signature).getD []).length ≠ 0

/-- One turn of the loop of `invalidateForTable`, with the signatures dispatched so far. -/
def invalidateOne (table : JsString) (skipSignature : Option JsString)
    (acc : PoolState D F N × List JsString) (signature : JsString) :
    PoolState D F N × List JsString :=
  match acc.1.cache.get signature, acc.1.signatureFetchers.get signature with
  | some entry, some fetcher =>
    if table ∉ entry.chainTables ∨ skipSignature = some signature ∨ signature ∈ acc.2 then acc
    else if !acc.1.subscribed signature then acc
    else (acc.1.dispatchFetch signature fetcher, acc.2 ++ [signature])
  | _, _ => acc

/-- `invalidateForTable`.  A call without `dispatchedSignatures` starts from none: it meets every
    signature once. -/
def invalidateForTable (σ : PoolState D F N) (table : JsString) (skipSignature : Option JsString)
    (dispatchedSignatures : List JsString) : PoolState D F N × List JsString :=
  (σ.cache.entries.map Prod.fst).foldl (invalidateOne table skipSignature) (σ, dispatchedSignatures)

/-- One turn of the loop of `failForTable`. -/
def failOne (table : JsString) (error : Err) (σ : PoolState D F N) (signature : JsString) :
    PoolState D F N :=
  match σ.cache.get signature with
  | none => σ
  | some entry =>
    if table ∉ entry.chainTables ∨ !σ.subscribed signature then σ
    else
      (σ.abortFetch entry.inFlight).putEntry signature (entry.failed error)

/-- `failForTable`. -/
def failForTable (σ : PoolState D F N) (table : JsString) (error : Err) : PoolState D F N :=
  (σ.cache.entries.map Prod.fst).foldl (failOne table error) σ

/-! ## Polls -/

/-- `startTablePoll`: the loop runs up to its first request. -/
def startTablePoll (σ : PoolState D F N) (table : JsString) (initialRefcount : Nat) :
    PoolState D F N :=
  if σ.tablePolls.has table then σ
  else
    { σ with
      tablePolls := σ.tablePolls.set table σ.polls.length
      polls := σ.polls ++ [⟨table, initialRefcount, false, [], none, 0, false, .polling []⟩] }

/-- Change the record of a poll. -/
def updatePoll (σ : PoolState D F N) (i : Nat) (f : TablePoll → TablePoll) : PoolState D F N :=
  { σ with polls := σ.polls.modify i f }

/-- `controller.abort()` and `tablePolls.delete(table)`. -/
def dropPoll (σ : PoolState D F N) (table : JsString) (i : Nat) : PoolState D F N :=
  let σ := σ.updatePoll i fun p => { p with aborted := true }
  { σ with tablePolls := σ.tablePolls.erase table }

/-- `restartTerminalPoll`. -/
def restartTerminalPoll (σ : PoolState D F N) (table : JsString) : PoolState D F N × Bool :=
  match σ.tablePolls.get table with
  | none => (σ, false)
  | some i =>
    match σ.polls[i]? with
    | none => (σ, false)
    | some poll =>
      if poll.terminalError = none then (σ, false)
      else ((σ.dropPoll table i).startTablePoll table poll.refcount, true)

/-- `stopTablePoll`. -/
def stopTablePoll (σ : PoolState D F N) (table : JsString) : PoolState D F N :=
  match σ.tablePolls.get table with
  | none => σ
  | some i =>
    let σ := σ.updatePoll i fun p => { p with refcount := p.refcount - 1 }
    if (σ.polls[i]?).any (·.refcount = 0) then σ.dropPoll table i else σ

/-- `incrementTablePoll`. -/
def incrementTablePoll (σ : PoolState D F N) (table : JsString) : PoolState D F N :=
  match σ.tablePolls.get table with
  | none => σ.startTablePoll table 1
  | some i => σ.updatePoll i fun p => { p with refcount := p.refcount + 1 }

/-- Back at the head of the loop. -/
def loopHead (p : TablePoll) : TablePoll :=
  { p with phase := if p.aborted then .returned else .polling p.cursor }

/-- `pollSinceOnce` resolved. -/
def pollResponse (σ : PoolState D F N) (i : Nat) (events : Nat) (nextCursor : JsString) :
    Option (PoolState D F N) :=
  match σ.polls[i]? with
  | none => none
  | some poll =>
    match poll.phase with
    | .polling requestCursor =>
      if poll.aborted then some (σ.updatePoll i fun p => { p with phase := .returned })
      else
        let σ := σ.updatePoll i fun p => { p with cursor := nextCursor }
        let σ := if 0 < events then (σ.invalidateForTable poll.table none []).1 else σ
        let recoveryProven := !poll.deadCursorRecoveryPending ∨ requestCursor ≠ [] ∨ nextCursor = []
        let σ := if recoveryProven then
            σ.updatePoll i fun p => { p with retryAttempt := 0, deadCursorRecoveryPending := false }
          else σ
        some (σ.updatePoll i loopHead)
    | _ => none

/-- `pollSinceOnce` rejected. -/
def pollError (σ : PoolState D F N) (i : Nat) (raw : Raised) : Option (PoolState D F N) :=
  match σ.polls[i]? with
  | none => none
  | some poll =>
    match poll.phase with
    | .polling _ =>
      if poll.aborted ∨ raw.isAbortError then
        some (σ.updatePoll i fun p => { p with phase := .returned })
      else if raw.isSchemaError ∧ poll.cursor ≠ [] then
        let σ := σ.updatePoll i fun p => { p with cursor := [], deadCursorRecoveryPending := true }
        let σ := (σ.invalidateForTable poll.table none []).1
        some (σ.updatePoll i fun p => { p with retryAttempt := p.retryAttempt + 1, phase := .waiting })
      else
        match raw.permanent with
        | some e =>
          let σ := σ.updatePoll i fun p => { p with terminalError := some e, phase := .returned }
          some (σ.failForTable poll.table e)
        | none =>
          some (σ.updatePoll i fun p => { p with
            retryAttempt := p.retryAttempt + 1
            phase := .waiting })
    | _ => none

/-- `waitForRetry` resolved, by its timer or because the controller was aborted. -/
def retryElapsed (σ : PoolState D F N) (i : Nat) : Option (PoolState D F N) :=
  match σ.polls[i]? with
  | none => none
  | some poll => if poll.phase = .waiting then some (σ.updatePoll i loopHead) else none

/-! ## Calls -/

/-- `refetch`: the tables it revives, in order, onto those so far. -/
def reviveOne (acc : PoolState D F N × List JsString) (table : JsString) :
    PoolState D F N × List JsString :=
  let (σ, restarted) := acc.1.restartTerminalPoll table
  (σ, if restarted then acc.2 ++ [table] else acc.2)

/-- `refetch`. -/
def refetch (σ : PoolState D F N) (signature : JsString) : PoolState D F N :=
  match σ.cache.get signature, σ.signatureFetchers.get signature with
  | some entry, some fetcher =>
    let (σ, revived) := entry.chainTables.foldl reviveOne (σ, [])
    let σ := σ.dispatchFetch signature fetcher
    (revived.foldl (fun acc table => acc.1.invalidateForTable table (some signature) acc.2)
      (σ, [])).1
  | _, _ => σ

/-- `attach`, up to the polls. -/
def enter [DecidableEq N] (σ : PoolState D F N) (signature : JsString) (tables : List JsString)
    (chainTables : List JsString) (fetcher : F) (notify : N) : PoolState D F N :=
  let subs := (σ.subscribersBySignature.get signature).getD []
  { σ with
    cache := if σ.cache.has signature then σ.cache
      else σ.cache.set signature ⟨loadingSnapshot, false, chainTables, none, σ.fetches.length⟩
    signatureFetchers := σ.signatureFetchers.set signature fetcher
    subscribersBySignature := σ.subscribersBySignature.set signature
      (if notify ∈ subs then subs else subs ++ [notify])
    attachments := σ.attachments ++ [⟨signature, tables, notify⟩] }

/-- `attach`. -/
def attach [DecidableEq N] (σ : PoolState D F N) (signature : JsString) (tables : List JsString)
    (chainTables : List JsString) (fetcher : F) (notify : N) : PoolState D F N :=
  let isFirstSubscriber := !σ.cache.has signature
  let σ := tables.foldl incrementTablePoll (σ.enter signature tables chainTables fetcher notify)
  if isFirstSubscriber then σ.dispatchFetch signature fetcher else σ

/-- `liveSubs.delete(notify)`, and what follows when none is left. -/
def dropSubscriber [DecidableEq N] (σ : PoolState D F N) (signature : JsString) (notify : N) :
    PoolState D F N :=
  match σ.subscribersBySignature.get signature with
  | none => σ
  | some subs =>
    let subs := subs.filter (· ≠ notify)
    if subs = [] then
      let σ := σ.abortFetch ((σ.cache.get signature).bind CacheEntry.inFlight)
      { σ with
        subscribersBySignature := σ.subscribersBySignature.erase signature
        cache := σ.cache.erase signature
        signatureFetchers := σ.signatureFetchers.erase signature }
    else { σ with subscribersBySignature := σ.subscribersBySignature.set signature subs }

/-- The closure returned by an `attach`. -/
def unsubscribe [DecidableEq N] (σ : PoolState D F N) (i : Nat) : Option (PoolState D F N) :=
  match σ.attachments[i]? with
  | none => none
  | some a =>
    let σ := { σ with attachments := σ.attachments.eraseIdx i }
    some (a.tables.foldl stopTablePoll (σ.dropSubscriber a.signature a.notify))

end PoolState

/-! ## Runs -/

/-- What can happen in one turn. -/
inductive PoolAct (D F N : Type) where
  | attach (signature : JsString) (tables chainTables : List JsString) (fetcher : F) (notify : N)
  | unsubscribe (i : Nat)
  | refetch (signature : JsString)
  | pollResponse (i events : Nat) (nextCursor : JsString)
  | pollError (i : Nat) (raw : Raised)
  | retryElapsed (i : Nat)
  | fetchSettled (i : Nat) (r : Except Raised (Option D))

namespace PoolState

variable {D F N : Type} [DecidableEq N]

/-- One turn.  Callers attach with a list of distinct tables, under a `notify` that no attachment
    holds. -/
def next (σ : PoolState D F N) : PoolAct D F N → Option (PoolState D F N)
  | .attach signature tables chainTables fetcher notify =>
    if tables.Nodup ∧ ∀ a ∈ σ.attachments, a.notify ≠ notify then
      some (σ.attach signature tables chainTables fetcher notify)
    else none
  | .unsubscribe i => σ.unsubscribe i
  | .refetch signature => some (σ.refetch signature)
  | .pollResponse i events nextCursor => σ.pollResponse i events nextCursor
  | .pollError i raw => σ.pollError i raw
  | .retryElapsed i => σ.retryElapsed i
  | .fetchSettled i r => σ.fetchSettled i r

/-- Many turns. -/
def run (σ : PoolState D F N) : List (PoolAct D F N) → Option (PoolState D F N)
  | [] => some σ
  | a :: as => (σ.next a).bind fun σ' => σ'.run as

/-- The states of a pool. -/
def Reachable (σ : PoolState D F N) : Prop := ∃ acts, init.run acts = some σ

end PoolState

end Baerly
