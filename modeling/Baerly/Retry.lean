import Baerly.SnapshotCodec
import Baerly.Storage

/-
  The adapters' retry policy (`protocol/src/storage/retry.ts`), and how the writer reads the
  rejection it ends with (`server/src/writer.ts`).

  PROGRAM: at most `retries + 1` attempts.  A permanent code ends the loop at once; any other
  rejection is retried until the budget is spent.  For a conditional create the loop remembers
  whether an attempt ended with an unknown outcome (`uncertain`): then a permanent rejection other
  than a conflict is reported as a `NetworkError`, and otherwise a spent budget is reported with
  the mark `cause.notApplied`.

  The wait between two attempts does not show in the outcome and is left out.
-/

namespace Baerly

/-! ## The two verdicts of the writer -/

/-- `isDefinitiveCreateRejection`. -/
def Err.isDefinitiveCreateRejection : Err → Bool
  | .baerly .accessDenied _ _ _ => true
  | .baerly .invalidConfig _ _ _ => true
  | _ => false

/-- `isCreateNotApplied`. -/
def Err.isCreateNotApplied : Err → Bool
  | .baerly .networkError _ _ notApplied => notApplied
  | _ => false

/-- The writer treats a create as certainly not applied on either verdict. -/
theorem Err.isNotApplied_eq (e : Err) :
    e.isNotApplied = (e.isDefinitiveCreateRejection || e.isCreateNotApplied) := by
  cases e with
  | baerly code message id notApplied => cases code <;> rfl
  | abort => rfl
  | other message => rfl

/-! ## Attempts -/

/-- What one attempt rejects with, and the mark `cause.throttled`. -/
structure Rejection where
  error : Err
  throttled : Bool

/-- `isThrottled`: only a `BaerlyError` has a cause that is looked at. -/
def Rejection.isThrottled (r : Rejection) : Bool := r.error.code?.isSome && r.throttled

/-- `PERMANENT_STORAGE_ERROR_CODES`. -/
def permanentStorageErrorCodes : List Code :=
  [.accessDenied, .invalidConfig, .invalidResponse, .writeConflict]

/-- A rejection that ends the loop at once. -/
def Rejection.isPermanent (r : Rejection) : Bool :=
  r.error.code?.any fun code => permanentStorageErrorCodes.contains code

/-- A rejection that proves that its own attempt was not applied: a refused precondition, a
    refused access or configuration, the `notApplied` mark, or a throttle. -/
def Rejection.provesNotApplied (r : Rejection) : Bool :=
  r.error.isWriteConflict || r.error.isNotApplied || r.isThrottled

/-- One attempt of a create, with what became of it at the store.  A resolved attempt was applied;
    any rejection that proves nothing leaves both open. -/
structure Attempt (α : Type) where
  outcome : Except Rejection α
  applied : Bool
  resolved : ∀ a, outcome = .ok a → applied = true
  refused : ∀ r, outcome = .error r → r.provesNotApplied = true → applied = false

/-! ## The loop -/

variable {α : Type}

/-- `StorageRetryOptions`, the two that decide the outcome. -/
structure StorageRetryOptions where
  retries : Option JsNumber
  conditionalCreate : Bool

/-- `STORAGE_RETRY_MAX_ATTEMPTS`. -/
def storageRetryMaxAttempts : Nat := 3

/-- What a permanent rejection is reported as. -/
def permanentFailure (conditionalCreate uncertain : Bool) (error : Err) : Err :=
  if conditionalCreate && uncertain && !error.isWriteConflict then
    .mk .networkError
      (error.message ++ " (an earlier attempt of this conditional create may have landed)")
  else error

/-- What the rejection of the last attempt is reported as. -/
def lastFailure (conditionalCreate uncertain : Bool) (error : Err) : Err :=
  match error with
  | .baerly code message id notApplied =>
    if conditionalCreate && !uncertain then .baerly code message none true
    else .baerly code message id notApplied
  | e => e

/-- The loop of `retryStorageCall` at attempt `attempt`, with `left` retries after it. -/
def retryLoop (conditionalCreate : Bool) (fn : Nat → Attempt α) :
    (left attempt : Nat) → (uncertain : Bool) → Except Err α
  | 0, attempt, uncertain =>
    match (fn attempt).outcome with
    | .ok a => .ok a
    | .error r =>
      if r.isPermanent then .error (permanentFailure conditionalCreate uncertain r.error)
      else .error (lastFailure conditionalCreate (uncertain || !r.isThrottled) r.error)
  | left + 1, attempt, uncertain =>
    match (fn attempt).outcome with
    | .ok a => .ok a
    | .error r =>
      if r.isPermanent then .error (permanentFailure conditionalCreate uncertain r.error)
      else retryLoop conditionalCreate fn left (attempt + 1) (uncertain || !r.isThrottled)

/-- How many attempts the loop makes. -/
def attemptsMade (fn : Nat → Attempt α) : (left attempt : Nat) → Nat
  | 0, _ => 1
  | left + 1, attempt =>
    match (fn attempt).outcome with
    | .ok _ => 1
    | .error r => if r.isPermanent then 1 else attemptsMade fn left (attempt + 1) + 1

/-- The budget of a call: the default, or a non-negative safe integer. -/
def retryBudget (opts : StorageRetryOptions) : Option Nat :=
  match opts.retries with
  | none => some (storageRetryMaxAttempts - 1)
  | some retries => retries.safeNat?

/-- `retryStorageCall`. -/
def retryStorageCall (N : NumberText) (opts : StorageRetryOptions) (fn : Nat → Attempt α) :
    Except Err α :=
  match retryBudget opts with
  | some retries => retryLoop opts.conditionalCreate fn retries 0 false
  | none => .error (.mk .invalidConfig ("storage retries must be a non-negative integer, got " ++
      showKey ((opts.retries.map N.text).getD [])))

/-- The attempts of a call: none when its budget is refused. -/
def attemptsOf (opts : StorageRetryOptions) (fn : Nat → Attempt α) : Nat :=
  match retryBudget opts with
  | some retries => attemptsMade fn retries 0
  | none => 0

end Baerly
