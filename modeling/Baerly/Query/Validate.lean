import Baerly.Query.Satisfiable

/-
  The wire validator (`protocol/src/query/validate.ts`).

  That a clause is an object with a known operator and a string field holds by type here, and so
  does that its numbers are finite; every other check is the source's.  Values are looked at one
  level deep only.
-/

namespace Baerly

/-- The text of an operator. -/
def PredicateOp.name : PredicateOp → String
  | .eq => "eq"
  | .gt => "gt"
  | .gte => "gte"
  | .lt => "lt"
  | .lte => "lte"
  | .in => "in"

/-- `validateMemberValue`. -/
def validateMemberValue (value : Doc) (field : JsString) (clauseIndex memberIndex : Nat) :
    Except Err Unit :=
  match value with
  | .null => .error (.mk .invalidConfig (s!"Predicate clause at index {clauseIndex} (op=\"in\", " ++
      s!"field={quote field}) member {memberIndex} is null — members must be string / number / " ++
      "boolean / nested object."))
  | .arr _ => .error (.mk .invalidConfig (s!"Predicate clause at index {clauseIndex} (op=\"in\", " ++
      s!"field={quote field}) member {memberIndex} is an array — members must be string / number " ++
      "/ boolean / nested object."))
  | _ => .ok ()

/-- The members of an `in` clause, from index `i` on. -/
def validateMembers (field : JsString) (clauseIndex : Nat) : Nat → List Doc → Except Err Unit
  | _, [] => .ok ()
  | i, value :: values => do
    validateMemberValue value field clauseIndex i
    validateMembers field clauseIndex (i + 1) values

/-- `validateScalar`. -/
def validateScalar (value : Doc) (field : JsString) (clauseIndex : Nat) : Except Err Unit :=
  match value with
  | .null => .error (.mk .invalidConfig (s!"Predicate clause at index {clauseIndex} " ++
      s!"(field={quote field}) value is null — terminal values must be string / number / boolean " ++
      "/ nested object."))
  | _ => .ok ()

/-- `validateRangeBound`. -/
def validateRangeBound (value : Doc) (field : JsString) (clauseIndex : Nat) : Except Err Unit :=
  match value with
  | .null => .error (.mk .invalidConfig (s!"Predicate range bound at clause {clauseIndex} " ++
      s!"(field={quote field}) is null — range bounds must be string or finite number."))
  | .bool _ => .error (.mk .invalidConfig (s!"Predicate range bound at clause {clauseIndex} " ++
      s!"(field={quote field}) is a boolean — range bounds must be string or finite number " ++
      "(booleans are not ordered)."))
  | .arr _ => .error (.mk .invalidConfig (s!"Predicate range bound at clause {clauseIndex} " ++
      s!"(field={quote field}) is a nested object — range bounds must be string or finite number."))
  | .obj _ => .error (.mk .invalidConfig (s!"Predicate range bound at clause {clauseIndex} " ++
      s!"(field={quote field}) is a nested object — range bounds must be string or finite number."))
  | _ => .ok ()

/-- Predicates do not key on `_id`, nor on a path below it. -/
def isIdField (field : JsString) : Bool :=
  field = js "_id" ∨ (js "_id.").isPrefixOf field

/-- `validateClause`. -/
def validateClause (clause : PredicateClause) (index : Nat) : Except Err Unit :=
  if clause.field = [] then
    .error (.mk .invalidConfig
      s!"Predicate clause at index {index} has empty / non-string field.")
  else if isIdField clause.field then
    .error (.mk .invalidConfig ("Predicates may not key on \"_id\"; use .get(id) / .update(id, " ++
      "patch) / .replace(id, doc) / .delete(id) instead."))
  else
    match clause.op, clause.value with
    | .in, .arr values =>
      if values = [] then
        .error (.mk .unsatisfiablePredicate (s!"Predicate clause at index {index} (op=\"in\", " ++
          s!"field={quote clause.field}) has empty value array — no document can match."))
      else validateMembers clause.field index 0 values
    | .in, _ => .error (.mk .invalidConfig (s!"Predicate clause at index {index} (op=\"in\", " ++
        s!"field={quote clause.field}) must carry an array value."))
    | op, .arr _ => .error (.mk .invalidConfig (s!"Predicate clause at index {index} " ++
        s!"(op=\"{op.name}\", field={quote clause.field}) must carry a primitive value, got an " ++
        "array — only op=\"in\" accepts arrays."))
    | .eq, value => validateScalar value clause.field index
    | _, value => validateRangeBound value clause.field index

/-- The clause loop of `validateWire`, from index `i` on. -/
def validateClauses : Nat → List PredicateClause → Except Err Unit
  | _, [] => .ok ()
  | i, clause :: clauses => do
    validateClause clause i
    validateClauses (i + 1) clauses

/-- `validateWire`. -/
def validateWire (E : Engine) (wire : PredicateWire) : Except Err PredicateWire := do
  validateClauses 0 wire.clauses
  assertWireSatisfiable E wire
  .ok wire

end Baerly
