import Baerly.Export
import Baerly.Query.Validate

/-
  Wire predicates as SQL: `cli/src/export/where.ts`.

  PROGRAM: a wire is validated again, and each clause becomes one condition on the column its field
  starts with: a plain comparison where the column is flat, an operator on JSON text or on a path
  into it where it is not, and `1 = 0` with a hint where nothing can match.
-/

namespace Baerly.Export

/-- `WhereTranslation`. -/
structure WhereTranslation where
  sql : JsString
  hints : List String

/-! ## Literals -/

/-- What `quoteLeaf` throws. -/
def nestedLeaf : Err :=
  .mk .invalidConfig ("translatePredicateWireToSql: nested object reached leaf quoter — " ++
    "callback-form q.eq(field, object) is not supported for SQL export. Hand-edit the emitted SQL.")

/-- `quoteLeaf`; `typeof null` is `"object"` too. -/
def quoteLeaf (N : NumberText) (target : SqlTarget) (value : Doc) : Except Err JsString :=
  if typeOf value = .object then .error nestedLeaf else quoteValue N target value

/-- `values.map((v) => quoteLeaf(v, target))`. -/
def quoteLeaves (N : NumberText) (target : SqlTarget) : List Doc → Except Err (List JsString)
  | [] => .ok []
  | value :: values => do
    let literal ← quoteLeaf N target value
    let literals ← quoteLeaves N target values
    .ok (literal :: literals)

/-- The comparator of an operator; `rangeComparator` takes `<=` for what it does not know. -/
def comparatorText : PredicateOp → JsString
  | .eq => js "="
  | .gt => js ">"
  | .gte => js ">="
  | .lt => js "<"
  | .lte | .in => js "<="

/-! ## Conditions -/

/-- `accessor op literal`, or `accessor IN (literals)`: the six cases of `flatColumnClause` and of
    `jsonPathClause`. -/
def leafClause (N : NumberText) (accessor : JsString) (clause : PredicateClause)
    (target : SqlTarget) : Except Err JsString :=
  match clause.op with
  | .in => do
    let literals ← quoteLeaves N target (inMembers clause.value)
    .ok (accessor ++ js " IN (" ++ List.intercalate (js ", ") literals ++ js ")")
  | op => do
    let literal ← quoteLeaf N target clause.value
    .ok (accessor ++ js " " ++ comparatorText op ++ js " " ++ literal)

/-- `flatColumnClause`. -/
def flatColumnClause (N : NumberText) (identifier : JsString) (clause : PredicateClause)
    (target : SqlTarget) : Except Err JsString :=
  leafClause N identifier clause target

/-- `quoteValue` of a text. -/
def quoteText (s : JsString) : JsString := 39 :: (double 39 s ++ [39])

/-- `jsonColumnRootClause`. -/
def jsonColumnRootClause (N : NumberText) (col : ColumnPlan) (clause : PredicateClause)
    (target : SqlTarget) : JsString :=
  let column := col.identifier ++ (if target = .postgres then js "::text" else [])
  match clause.op with
  | .in =>
    let literals := (inMembers clause.value).map fun v => quoteText (JSON.stringify N v)
    column ++ js " IN (" ++ List.intercalate (js ", ") literals ++ js ")"
  | op => column ++ js " " ++ comparatorText op ++ js " " ++ quoteText (JSON.stringify N clause.value)

/-- The `->` chain of `jsonPathAccessor`; the last step is `->>`. -/
def arrowChain (expr : JsString) : List JsString → JsString
  | [] => expr
  | [seg] => expr ++ js "->>" ++ quoteText seg
  | seg :: tail => arrowChain (expr ++ js "->" ++ quoteText seg) tail

/-- `jsonPathAccessor`. -/
def jsonPathAccessor (identifier : JsString) (tail : List JsString) (target : SqlTarget) :
    JsString :=
  if target = .postgres then arrowChain identifier tail
  else js "json_extract(" ++ identifier ++ js ", '$." ++
    List.intercalate (js ".") (tail.map (double 39)) ++ js "')"

/-- `jsonPathClause`. -/
def jsonPathClause (N : NumberText) (col : ColumnPlan) (tail : List JsString)
    (clause : PredicateClause) (target : SqlTarget) : Except Err JsString :=
  leafClause N (jsonPathAccessor col.identifier tail target) clause target

/-- What an unmatchable clause becomes. -/
def unmatchable : JsString := js "1 = 0"

/-- `clauseForWire`: the condition, and the hint it pushes. -/
def clauseForWire (N : NumberText) (clause : PredicateClause) (plan : ExportPlan) :
    Except Err (JsString × Option String) :=
  match (if clause.field.contains 46 then splitDots clause.field else [clause.field]) with
  | [] | [] :: _ => .error (.mk .invalidConfig
      "translatePredicateWireToSql: empty field path encountered (defensive)")
  | head :: tail =>
    match plan.columns.find? fun c => c.source = head with
    | none => .ok (unmatchable, some (s!"predicate field {quote clause.field} references a key " ++
        "never observed in the snapshot; this clause cannot match."))
    | some col =>
      if !col.jsonEncoded then
        if tail = [] then (flatColumnClause N col.identifier clause plan.target).map (·, none)
        else .ok (unmatchable, some (s!"predicate path {quote clause.field} addresses a flat " ++
          "column; this clause cannot match. Hand-edit if intended."))
      else if tail = [] then .ok (jsonColumnRootClause N col clause plan.target, none)
      else (jsonPathClause N col tail clause plan.target).map (·, none)

/-- The loop over the clauses. -/
def clausesForWire (N : NumberText) (plan : ExportPlan) :
    List PredicateClause → Except Err (List JsString × List String)
  | [] => .ok ([], [])
  | clause :: clauses => do
    let (sql, hint) ← clauseForWire N clause plan
    let (sqls, hints) ← clausesForWire N plan clauses
    .ok (sql :: sqls, hint.toList ++ hints)

/-- The hint a caller asked for. -/
def dynamicHints (dynamicHint : Option String) : List String :=
  match dynamicHint with
  | some hint =>
    if hint = "" then []
    else [s!"caller-flagged dynamic predicate: {hint}. Review the emitted SQL for completeness."]
  | none => []

/-- `translatePredicateWireToSql`. -/
def translatePredicateWireToSql (N : NumberText) (E : Engine) (wire : PredicateWire)
    (plan : ExportPlan) (dynamicHint : Option String) : Except Err WhereTranslation := do
  let _ ← validateWire E wire
  let (clauses, hints) ← clausesForWire N plan wire.clauses
  .ok { sql := List.intercalate (js " AND ") clauses, hints := dynamicHints dynamicHint ++ hints }

end Baerly.Export
