import Baerly.Lib.Percent
import Baerly.JsonText
import Baerly.Query.Normalize
import Baerly.Query.Validate

/-
  The cache key of `useQuery` and the request its callback makes
  (`client/src/react/use-query.ts`, `client/src/react/stable-key.ts`, `client/src/client.ts`).

  PROGRAM: a callback runs twice.  Against the recorder it leaves the names of the methods it called
  (`recorded`), which `signature` hashes together with the caller's deps and the live flag.  Against
  the client the same calls fold their arguments into a query state, and the terminal turns the state
  into one `GET` (`request`).  The arguments are in the second run only.

  The path of a request is kept as the URL parser leaves it: segments, with the dot segments taken
  out; the base URL in front of it is the client's and the same for every call.
-/

namespace Baerly.UseQuery

/-! ## Query chains -/

/-- A number an application can pass to `limit`. -/
inductive Amount where
  | finite (n : JsNumber)
  | nan
  | infinity (negative : Bool)

/-- The argument of `where`: an object, or a callback that pushes clauses on its builder. -/
inductive PredicateArg where
  | object (members : List (JsString × Doc))
  | callback (clauses : List PredicateClause)

/-- A chainable call with its argument. -/
inductive Modifier where
  | predicate (arg : PredicateArg)
  | order (spec : List (JsString × Doc))
  | limit (n : Amount)

inductive Terminal where
  | first
  | all
  | count
  deriving DecidableEq

/-- What follows `.collection(name)`; `get` is not on a query. -/
inductive Call where
  | get (id : JsString)
  | query (modifiers : List Modifier) (terminal : Terminal)

/-- One read of a `useQuery` callback. -/
structure Chain where
  collection : JsString
  call : Call

/-! ## The recorder -/

def Modifier.name : Modifier → JsString
  | .predicate _ => js "where"
  | .order _ => js "order"
  | .limit _ => js "limit"

def Terminal.name : Terminal → JsString
  | .first => js "first"
  | .all => js "all"
  | .count => js "count"

/-- What `makeCollection` and `makeQuery` push: names, no arguments. -/
def Call.names : Call → List JsString
  | .get _ => [js "get"]
  | .query modifiers terminal => modifiers.map Modifier.name ++ [terminal.name]

/-- `state.chain` after the callback ran against the recorder. -/
def recorded (c : Chain) : List JsString := (js "collection:" ++ c.collection) :: c.call.names

mutual

/-- `stableKey`. -/
def stableKey (N : NumberText) : Doc → JsString
  | .null => js "null"
  | .bool true => js "true"
  | .bool false => js "false"
  | .num n => N.text n
  | .str s => JSON.quote s
  | .arr xs => 91 :: (JSON.join (stableItems N xs) ++ [93])
  | .obj ms =>
    let entries := (stableEntries N ms).mergeSort fun a b => decide (a.1 ≤ b.1)
    123 :: (JSON.join (entries.map fun e => JSON.quote e.1 ++ 58 :: e.2) ++ [125])

def stableItems (N : NumberText) : List Doc → List JsString
  | [] => []
  | x :: xs => stableKey N x :: stableItems N xs

/-- The members with their values printed; the keys are sorted afterwards. -/
def stableEntries (N : NumberText) : List (JsString × Doc) → List (JsString × JsString)
  | [] => []
  | (key, x) :: ms => (key, stableKey N x) :: stableEntries N ms

end

/-- An entry of `deps`.  `JSON.stringify(undefined)` is `undefined`, which `join` prints as
    nothing. -/
def depKey (N : NumberText) : Option Doc → JsString
  | none => []
  | some v => stableKey N v

/-- `chainShape`. -/
def chainShape (N : NumberText) (c : Chain) : JsString :=
  stableKey N (.arr ((recorded c).map Json.str))

/-- `signatureBase` of a callback that records `c`: `stableKey([chainShape, deps, live])`. -/
def signature (N : NumberText) (deps : List (Option Doc)) (live : Bool) (c : Chain) : JsString :=
  91 :: (JSON.join [stableKey N (.str (chainShape N c)),
    91 :: (JSON.join (deps.map (depKey N)) ++ [93]), stableKey N (.bool live)] ++ [93])

/-! ## The client -/

/-- `String(n)`. -/
def Amount.text (N : NumberText) : Amount → JsString
  | .finite n => N.text n
  | .nan => js "NaN"
  | .infinity false => js "Infinity"
  | .infinity true => js "-Infinity"

/-- `normalizePredicateArg`. -/
def normalizePredicateArg : PredicateArg → Except Err (List PredicateClause)
  | .object members => normalizeObject members []
  | .callback clauses => .ok clauses

/-- `QueryState`. -/
structure QueryState where
  wire : List PredicateClause
  order : Option (List (JsString × Doc))
  limit : Option Amount

/-- `emptyState`. -/
def emptyState : QueryState := ⟨[], none, none⟩

/-- The modifiers of `makeClientQuery`. -/
def QueryState.apply (state : QueryState) : Modifier → Except Err QueryState
  | .predicate arg => do
    let incoming ← normalizePredicateArg arg
    let merged := if state.wire = [] then incoming else state.wire ++ incoming
    .ok { state with wire := merged }
  | .order spec => .ok { state with order := some spec }
  | .limit n => .ok { state with limit := some n }

/-- The state a chain of modifiers leaves, from `state` on. -/
def QueryState.applyAll (state : QueryState) : List Modifier → Except Err QueryState
  | [] => .ok state
  | m :: ms => do
    let next ← state.apply m
    next.applyAll ms

/-- A clause as `JSON.stringify` sees it. -/
def clauseJson (clause : PredicateClause) : Doc :=
  .obj [(js "op", .str (js clause.op.name)), (js "field", .str clause.field),
    (js "value", clause.value)]

/-- `JSON.stringify(state.wire)`. -/
def wireText (N : NumberText) (wire : List PredicateClause) : JsString :=
  JSON.stringify N (.obj [(js "clauses", .arr (wire.map clauseJson))])

/-- The `where` parameter; a query without clauses has none. -/
def whereParams (N : NumberText) (state : QueryState) : List (JsString × JsString) :=
  if state.wire = [] then [] else [(js "where", wireText N state.wire)]

/-- The `order` parameter; neither an absent nor an empty specification has one. -/
def orderParams (N : NumberText) (state : QueryState) : List (JsString × JsString) :=
  match state.order with
  | some (m :: ms) => [(js "order", JSON.stringify N (.obj (m :: ms)))]
  | _ => []

/-- The `limit` parameter. -/
def limitParams (N : NumberText) (state : QueryState) : List (JsString × JsString) :=
  match state.limit with
  | some n => [(js "limit", n.text N)]
  | none => []

/-- The `limit` parameter of a list under `listPath`'s override: `params.set` replaces the value of
    the limit that stands at the end already, and appends one where there is none. -/
def listLimit (N : NumberText) (state : QueryState) : Terminal → List (JsString × JsString)
  | .first => [(js "limit", js "1")]
  | .all => limitParams N state
  | .count => limitParams N state

/-- `listParams` and `listPath`'s override. -/
def listParams (N : NumberText) (state : QueryState) (terminal : Terminal) :
    List (JsString × JsString) :=
  whereParams N state ++ orderParams N state ++ listLimit N state terminal

/-! ## URLs -/

def isAlphanumeric (b : Nat) : Bool :=
  (0x30 ≤ b ∧ b ≤ 0x39) ∨ (0x41 ≤ b ∧ b ≤ 0x5a) ∨ (0x61 ≤ b ∧ b ≤ 0x7a)

/-- What `encodeURIComponent` leaves: letters, digits and `-_.!~*'()`. -/
def spellComponent (b : Fin 256) : Option (Fin 65536) :=
  if isAlphanumeric b.val ∨ b.val ∈ [0x2d, 0x5f, 0x2e, 0x21, 0x7e, 0x2a, 0x27, 0x28, 0x29] then
    some (Fin.ofNat 65536 b.val)
  else none

/-- What a form leaves: letters, digits and `*-._`, and a space as `+`. -/
def spellForm (b : Fin 256) : Option (Fin 65536) :=
  if b.val = 0x20 then some 0x2b
  else if isAlphanumeric b.val ∨ b.val ∈ [0x2a, 0x2d, 0x2e, 0x5f] then some (Fin.ofNat 65536 b.val)
  else none

/-- Why a call sends nothing. -/
inductive CallError where
  /-- `where` threw. -/
  | thrown (e : Err)
  /-- `encodeURIComponent` met a surrogate that is in no pair. -/
  | uriMalformed

/-- `encodeURIComponent`. -/
def encodeURIComponent (s : JsString) : Except CallError JsString :=
  if Utf8.wellFormed s then .ok (Percent.encode spellComponent (Utf8.encode s))
  else .error .uriMalformed

/-- A name or a value of `URLSearchParams.toString`; a surrogate in no pair becomes U+FFFD. -/
def formText (s : JsString) : JsString := Percent.encode spellForm (Utf8.encode s)

/-- `params.toString()`. -/
def searchText (params : List (JsString × JsString)) : JsString :=
  List.intercalate [38] (params.map fun p => formText p.1 ++ 61 :: formText p.2)

/-- The URL parser on the segments of a path: `.` and `..` are taken out. -/
def parsePath : (done : List JsString) → List JsString → List JsString
  | done, [] => done
  | done, [seg] =>
    if seg = js ".." then done.dropLast ++ [[]]
    else if seg = js "." then done ++ [[]]
    else done ++ [seg]
  | done, seg :: next :: segs =>
    if seg = js ".." then parsePath done.dropLast (next :: segs)
    else if seg = js "." then parsePath done (next :: segs)
    else parsePath (done ++ [seg]) (next :: segs)

/-- A `GET` of the client: the segments of the path and the query string. -/
structure Request where
  path : List JsString
  query : JsString
  deriving DecidableEq

/-- `collection.get(id)`. -/
def getRequest (collection id : JsString) : Except CallError Request := do
  let name ← encodeURIComponent collection
  let id ← encodeURIComponent id
  .ok ⟨parsePath [] [js "v1", js "c", name, id], []⟩

/-- `query.first()` and `query.all()`. -/
def listRequest (N : NumberText) (collection : JsString) (state : QueryState) (terminal : Terminal) :
    Except CallError Request := do
  let name ← encodeURIComponent collection
  .ok ⟨parsePath [] [js "v1", js "c", name], searchText (listParams N state terminal)⟩

/-- `query.count()`. -/
def countRequest (N : NumberText) (collection : JsString) (state : QueryState) : Request :=
  ⟨parsePath [] [js "v1", js "count"],
    searchText ((js "collection", collection) :: whereParams N state)⟩

/-- What the callback sends when it runs against the client. -/
def request (N : NumberText) (c : Chain) : Except CallError Request :=
  match c.call with
  | .get id => getRequest c.collection id
  | .query modifiers terminal =>
    match emptyState.applyAll modifiers with
    | .error e => .error (.thrown e)
    | .ok state =>
      match terminal with
      | .count => .ok (countRequest N c.collection state)
      | terminal => listRequest N c.collection state terminal

end Baerly.UseQuery
