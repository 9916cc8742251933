import Baerly.Json
import Baerly.Lib.Utf8

/-
  The error type every module throws (`protocol/src/errors.ts`), and the predicates the
  coordination code discriminates by.
-/

namespace Baerly

/-- `BaerlyErrorCode`. -/
inductive Code where
  | invalidConfig | networkError | accessDenied | invalidResponse | internal | schemaError
  | writeConflict | alreadyExists | ambiguousCommit | capacityExceeded | unauthorized | notFound
  | payloadTooLarge | unsatisfiablePredicate | useQueryAwaitedRecorder
  | unexpectedWriteInQuery | mutationFailed
  deriving DecidableEq, Repr

/-- What a promise can reject with: a `BaerlyError`, the `AbortError` of a cancelled signal, or
    anything else.  `notApplied` is the `cause.notApplied` mark of the `Storage.put` contract and
    `id` the row an `AmbiguousCommit` names. -/
inductive Err where
  | baerly (code : Code) (message : String) (id : Option JsString) (notApplied : Bool)
  | abort
  | other (message : String)
  deriving DecidableEq, Repr

namespace Err

/-- `new BaerlyError(code, message)`. -/
def mk (code : Code) (message : String) : Err :=
  .baerly code message none false

/-- `isWriteConflict`. -/
def isWriteConflict : Err → Bool
  | .baerly .writeConflict _ _ _ => true
  | _ => false

/-- `err.message`. -/
def message : Err → String
  | .baerly _ m _ _ => m
  | .abort => "This operation was aborted"
  | .other m => m

/-- `err.code`, for a `BaerlyError`. -/
def code? : Err → Option Code
  | .baerly c _ _ _ => some c
  | _ => none

@[simp] theorem isWriteConflict_mk (c : Code) (m : String) :
    (mk c m).isWriteConflict = decide (c = .writeConflict) := by
  cases c <;> rfl

end Err

/-- A string inside an error message; a lone surrogate prints as U+FFFD. -/
def showKey (key : JsString) : String :=
  String.ofList ((Utf8.codePoints key).map Char.ofNat)

end Baerly
