import Baerly.Query.Satisfiable

/-
  How queries build wires: merging two of them (`protocol/src/query/merge.ts`) and flattening a
  predicate object (`protocol/src/query/normalize.ts`).

  PROGRAM: a merge concatenates the clauses and checks the result.  `normalizeObject` walks the
  object; each scalar becomes an `eq` clause whose field is the path to it, joined with dots.  That
  a number is finite and that no value is `undefined` holds by type.
-/

namespace Baerly

/-- `mergePredicateWires`. -/
def mergePredicateWires (E : Engine) (a b : PredicateWire) : Except Err PredicateWire := do
  assertWireSatisfiable E ⟨a.clauses ++ b.clauses⟩
  .ok ⟨a.clauses ++ b.clauses⟩

/-- `formatPath`. -/
def formatPath (path : List JsString) : String :=
  if path = [] then "<root>" else ".".intercalate (path.map quote)

/-- `path.join(".")`. -/
def joinDots : List JsString → JsString
  | [] => []
  | [seg] => seg
  | seg :: segs => seg ++ 46 :: joinDots segs

/-- The checks of a key: neither an operator nor a name that reaches a prototype. -/
def checkPredicateKey (key : JsString) (basePath : List JsString) : Except Err Unit :=
  if (js "$").isPrefixOf key then
    .error (.mk .invalidConfig (s!"Unsupported predicate operator {quote key} at " ++
      s!"{formatPath basePath} — operator vocabulary moved to the callback form " ++
      "(.where(q => q.gt(field, value))). $-keys are not accepted in object-form predicates."))
  else if key = js "__proto__" ∨ key = js "constructor" ∨ key = js "prototype" then
    .error (.mk .invalidConfig (s!"Reserved key {quote key} not allowed in a predicate at " ++
      s!"{formatPath basePath}."))
  else .ok ()

theorem wf_num (n : JsNumber) : Json.wf (.num n : Doc) = true := rfl

theorem wf_bool (b : Bool) : Json.wf (.bool b : Doc) = true := rfl

mutual

/-- The clauses of the value at `path`. -/
def normalizeValue (path : List JsString) : Doc → Except Err (List PredicateClause)
  | .null => .error (.mk .invalidConfig (s!"Predicate value at {formatPath path} is null — " ++
      "terminal values must be string / number / boolean / nested object."))
  | .arr _ => .error (.mk .invalidConfig (s!"Predicate value at {formatPath path} is an array — " ++
      "match nested objects with a sub-predicate or use callback form (q.in(field, values)) for " ++
      "set membership."))
  | .obj ms => normalizeObject ms path
  | .str s => .ok [⟨.eq, joinDots path, .str s, Json.wf_str s⟩]
  | .num n => .ok [⟨.eq, joinDots path, .num n, wf_num n⟩]
  | .bool b => .ok [⟨.eq, joinDots path, .bool b, wf_bool b⟩]

/-- `normalizeObject`. -/
def normalizeObject (obj : List (JsString × Doc)) (basePath : List JsString) :
    Except Err (List PredicateClause) :=
  match obj with
  | [] => .ok []
  | (key, value) :: ms => do
    checkPredicateKey key basePath
    let inner ← normalizeValue (basePath ++ [key]) value
    let rest ← normalizeObject ms basePath
    .ok (inner ++ rest)

end

end Baerly
