import Baerly.Query.Validate

/-
  Index definitions and their validation (`protocol/src/indexes.ts`, `server/src/indexes.ts`).

  A definition is configuration, typed by the source: the values of its filter are
  `DocumentValue`s, which hold no `null`.
-/

namespace Baerly

/-- `on`: one field, or a tuple. -/
inductive IndexOn where
  | field (field : JsString)
  | fields (fields : List JsString)

/-- The tuple of indexed fields. -/
def IndexOn.tuple : IndexOn → List JsString
  | .field f => [f]
  | .fields fs => fs

/-- `IndexDefinition`. -/
structure IndexDefinition where
  name : JsString
  on : IndexOn
  predicate : Option PredicateWire
  typed : ∀ filter, predicate = some filter →
    ∀ clause ∈ filter.clauses, clause.value.noNull = true

/-- A code unit in `[a-z]`. -/
def isLowerAlpha (u : Fin 65536) : Bool := 97 ≤ u.val ∧ u.val ≤ 122

/-- `INDEX_NAME_RE = /^[a-z][a-z0-9_]*$/`. -/
def indexNameOk : JsString → Bool
  | [] => false
  | u :: us => isLowerAlpha u && us.all fun v => isLowerAlpha v || isDigit v || v = 95

/-- A filter that fails its validation is reported as a schema error; anything but a
    `BaerlyError` passes through. -/
def asSchemaError (name : JsString) : Err → Err
  | .baerly _ message _ _ =>
    .mk .schemaError s!"index {showKey name}.predicate is invalid: {message}"
  | e => e

/-- `validateIndexDefinition`. -/
def validateIndexDefinition (E : Engine) (d : IndexDefinition) : Except Err Unit := do
  assertNameNotReserved d.name "index.name"
  if !indexNameOk d.name then
    .error (.mk .schemaError
      ("index.name must match /^[a-z][a-z0-9_]*$/; got " ++ quote d.name))
  else
  match d.on with
  | .field [] => .error (.mk .schemaError s!"index {showKey d.name}.on must be non-empty")
  | .fields [] => .error (.mk .schemaError s!"index {showKey d.name}.on must be non-empty array")
  | _ =>
    match d.predicate with
    | none => .ok ()
    | some filter =>
      match validateWire E filter with
      | .ok _ => .ok ()
      | .error e => .error (asSchemaError d.name e)

end Baerly
