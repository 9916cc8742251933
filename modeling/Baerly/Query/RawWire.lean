import Baerly.Query.Validate

/-
  The wire validator on what an HTTP client sends: any JSON value (`protocol/src/query/validate.ts`).

  PROGRAM: the same checks as on a typed wire, preceded by those that `Query.Validate` has by type:
  the wire is an object with a `clauses` array, each clause is an object with a known operator and
  a string field, and a missing value is `undefined`.
-/

namespace Baerly.Raw

/-- A member of a value with distinct keys has distinct keys. -/
theorem member_wf {v u : Doc} {key : JsString} (hwf : v.wf = true) (h : v.member key = some u) :
    u.wf = true := by
  cases v with
  | obj ms => exact ownEntries_wf hwf (mem_of_lookup h)
  | _ => cases h

/-- Membership in `OP_NAMES`. -/
def opOf : Option Doc → Option PredicateOp
  | some (.str name) =>
    [PredicateOp.eq, .gt, .gte, .lt, .lte, .in].find? fun op => name = js op.name
  | _ => none

/-- `JSON.stringify`, which leaves `undefined` as it is. -/
def stringify (E : Engine) : Option Doc → String
  | some v => jsonStringify E v
  | none => "undefined"

/-- What a clause without a value is rejected with. -/
def undefinedValue (op : PredicateOp) (field : JsString) (index : Nat) : Err :=
  match op with
  | .in => .mk .invalidConfig (s!"Predicate clause at index {index} (op=\"in\", " ++
      s!"field={quote field}) must carry an array value.")
  | .eq => .mk .invalidConfig (s!"Predicate clause at index {index} (field={quote field}) value " ++
      "is undefined — terminal values must be string / number / boolean / nested object.")
  | _ => .mk .invalidConfig (s!"Predicate range bound at clause {index} (field={quote field}) is " ++
      "undefined — range bounds must be string or finite number.")

/-- `validateClause`, where the operator and the field are known and the value is missing. -/
def rejectUndefined (op : PredicateOp) (field : JsString) (index : Nat) : Err :=
  if field = [] then
    .mk .invalidConfig s!"Predicate clause at index {index} has empty / non-string field."
  else if isIdField field then
    .mk .invalidConfig ("Predicates may not key on \"_id\"; use .get(id) / .update(id, " ++
      "patch) / .replace(id, doc) / .delete(id) instead.")
  else undefinedValue op field index

/-- `validateClause`. -/
def validateClause (E : Engine) (clause : Doc) (hwf : clause.wf = true) (index : Nat) :
    Except Err PredicateClause :=
  if clause.isObjectLike = false then
    .error (.mk .invalidConfig (s!"Predicate clause at index {index} must be an object — got " ++
      s!"{jsonStringify E clause}."))
  else
    match opOf (clause.member (js "op")) with
    | none => .error (.mk .invalidConfig (s!"Predicate clause at index {index} has unsupported " ++
        "op " ++ stringify E (clause.member (js "op")) ++
        " — supported: eq / gt / gte / lt / lte / in."))
    | some op =>
      match clause.member (js "field") with
      | some (.str field) =>
        match hvalue : clause.member (js "value") with
        | some value =>
          match Baerly.validateClause ⟨op, field, value, member_wf hwf hvalue⟩ index with
          | .ok _ => .ok ⟨op, field, value, member_wf hwf hvalue⟩
          | .error e => .error e
        | none => .error (rejectUndefined op field index)
      | _ => .error (.mk .invalidConfig
          s!"Predicate clause at index {index} has empty / non-string field.")

theorem wfList_head {x : Doc} {xs : List Doc} (h : Json.wfList (x :: xs) = true) : x.wf = true :=
  wfList_mem h List.mem_cons_self

theorem wfList_tail {x : Doc} {xs : List Doc} (h : Json.wfList (x :: xs) = true) :
    Json.wfList xs = true := by
  rw [Json.wfList, Bool.and_eq_true] at h
  exact h.2

/-- The clause loop of `validateWire`, from `index` on. -/
def validateClauses (E : Engine) (index : Nat) :
    (clauses : List Doc) → Json.wfList clauses = true → Except Err (List PredicateClause)
  | [], _ => .ok []
  | clause :: clauses, hwf => do
    let first ← validateClause E clause (wfList_head hwf) index
    let rest ← validateClauses E (index + 1) clauses (wfList_tail hwf)
    .ok (first :: rest)

theorem items_wf {wire : Doc} {key : JsString} {xs : List Doc} (hwf : wire.wf = true)
    (h : wire.member key = some (.arr xs)) : Json.wfList xs = true := by
  have harr := member_wf hwf h
  rwa [Json.wf] at harr

/-- `validateWire`. -/
def validateWire (E : Engine) (wire : Doc) (hwf : wire.wf = true) : Except Err PredicateWire :=
  match hclauses : wire.member (js "clauses") with
  | some (.arr clauses) => do
    let clauses ← validateClauses E 0 clauses (items_wf hwf hclauses)
    assertWireSatisfiable E ⟨clauses⟩
    .ok ⟨clauses⟩
  | _ => .error (.mk .invalidConfig "Predicate wire must be an object with a \"clauses\" array.")

end Baerly.Raw
