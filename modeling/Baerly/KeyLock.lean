import Baerly.Errors
import Baerly.Lib.InsMap
import Baerly.Lib.Prog

/-
  The keyed mutex of the local adapter: `dev/src/key-lock.ts`.

  PROGRAM: a module-level map from lock keys to lock objects.  A call of `withKeyLock` takes a
  ticket: it remembers the promise at the end of the queue and puts its own promise there.  It
  awaits the first, runs its section, and then resolves its own.  Everything before the first
  `await` and everything in the `finally` runs without interruption, so taking a ticket and
  releasing it are one request each; awaiting a promise is a request that is answered once the
  promise is resolved.

  Lock objects and promises have identity, so they are positions in the lists of all that were
  ever made.  `Promise.resolve()` is resolved from the start and is written `none`.
-/

namespace Baerly

open Async

/-- `KeyLock`. -/
structure KeyLock where
  /-- The promise the next arrival waits on. -/
  tail : Option Nat
  waiters : Nat
  deriving DecidableEq, Repr

/-- A promise made by `withKeyLock`.  A program sees only whether it is resolved; the rest is a
    ghost record of the call that made it. -/
structure Ticket where
  owner : Nat
  lockKey : JsString
  lock : Nat
  predecessor : Option Nat
  resolved : Bool
  deriving DecidableEq, Repr

/-- `locks`, and every lock object and promise made so far. -/
structure Locks where
  live : InsMap JsString Nat
  objects : List KeyLock
  tickets : List Ticket

namespace Locks

/-- The state of the module when it is loaded. -/
def empty : Locks := ⟨InsMap.empty, [], []⟩

/-- Is the promise resolved? -/
def isResolved (l : Locks) : Option Nat → Bool
  | none => true
  | some i => (l.tickets[i]?).any (·.resolved)

/-- `locks.get(lockKey)`, or a new lock object under that key. -/
def acquireLock (lockKey : JsString) (l : Locks) : Nat × Locks :=
  match l.live.get lockKey with
  | some lock => (lock, l)
  | none => (l.objects.length,
      { l with live := l.live.set lockKey l.objects.length, objects := l.objects ++ [⟨none, 0⟩] })

/-- Call `t` takes a ticket: the lock object, the predecessor's promise and its own. -/
def takeTicket (t : Nat) (lockKey : JsString) (l : Locks) : (Nat × Option Nat × Nat) × Locks :=
  let (lock, l) := l.acquireLock lockKey
  let predecessor := (l.objects[lock]?).bind (·.tail)
  let own := l.tickets.length
  ((lock, predecessor, own),
    { l with
      objects := l.objects.modify lock fun o => ⟨some own, o.waiters + 1⟩
      tickets := l.tickets ++ [⟨t, lockKey, lock, predecessor, false⟩] })

/-- `release()`: the promise of ticket `own` is resolved. -/
def resolve (own : Nat) (tickets : List Ticket) : List Ticket :=
  tickets.modify own fun k => { k with resolved := true }

/-- The `finally` block. -/
def release (lockKey : JsString) (lock own : Nat) (l : Locks) : Locks :=
  let tickets := resolve own l.tickets
  let objects := l.objects.modify lock fun o => { o with waiters := o.waiters - 1 }
  let drained := (objects[lock]?).any fun o => o.waiters = 0
  if drained ∧ l.live.get lockKey = some lock then ⟨l.live.erase lockKey, objects, tickets⟩
  else ⟨l.live, objects, tickets⟩

/-- `keyLockCount`. -/
def keyLockCount (l : Locks) : Nat := l.live.size

end Locks

/-! ## Requests

A section may make requests of its own, `Op`; the requests of the mutex stand beside them. -/

/-- What `withKeyLock` asks for. -/
inductive LockOp where
  /-- Everything before the first `await`. -/
  | ticket (lockKey : JsString)
  /-- `await predecessor`. -/
  | await (promise : Option Nat)
  /-- The `finally` block. -/
  | release (lockKey : JsString) (lock own : Nat)
  deriving DecidableEq, Repr

/-- What it gets back. -/
abbrev LockOp.Resp : LockOp → Type
  | .ticket _ => Nat × Option Nat × Nat
  | .await _ => Unit
  | .release _ _ _ => Unit

/-- The responses of both kinds of requests. -/
abbrev LockedResp {Op : Type} (Resp : Op → Type) : LockOp ⊕ Op → Type
  | .inl op => op.Resp
  | .inr op => Resp op

/-- Answer a request of call `t`; a promise that is not resolved is not answered. -/
def Locks.exec (t : Nat) : (op : LockOp) → Locks → Option (op.Resp × Locks)
  | .ticket lockKey, l => some (l.takeTicket t lockKey)
  | .await promise, l => if l.isResolved promise then some ((), l) else none
  | .release lockKey lock own, l => some ((), l.release lockKey lock own)

/-- `withKeyLock`: the outcome of `fn` is kept until the lock is released. -/
def withKeyLock {Op : Type} {Resp : Op → Type} {ε α : Type} (lockKey : JsString)
    (fn : Prog (LockOp ⊕ Op) (LockedResp Resp) ε α) : Prog (LockOp ⊕ Op) (LockedResp Resp) ε α :=
  .call (.inl (.ticket lockKey)) fun ticket =>
    .call (.inl (.await ticket.2.1)) fun _ =>
      fn.attempt.bind fun outcome =>
        .call (.inl (.release lockKey ticket.1 ticket.2.2)) fun _ =>
          match outcome with
          | .ok a => .ret a
          | .error e => .throw e

end Baerly
