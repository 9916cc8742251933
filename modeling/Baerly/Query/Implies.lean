import Baerly.Query.Satisfiable

/-
  Filtered-index implication (`server/src/query-planner-implies.ts`): does a query predicate imply
  an index's own predicate?

  The comparison operators of the host language are used on values of any type here, so a set that
  mixes types is ordered by the language's conversions (`Engine.less`).
-/

namespace Baerly

/-- `a < b` of the host language: strings and numbers among themselves, converted otherwise. -/
def jsLess (E : Engine) : Doc → Doc → Except Err Bool
  | .str a, .str b => .ok (a < b)
  | .num a, .num b => .ok (a < b)
  | a, b => E.less a b

/-- `OperatorBundle`; a bound is a `RangeInfo`, and `set` is the member `in`. -/
structure OperatorBundle where
  eq : Option Doc
  lo : Option Bound
  hi : Option Bound
  set : Option (List Doc)

/-- `groupByField`, onto the groups so far. -/
def groupByField (groups : InsMap JsString (List PredicateClause)) :
    List PredicateClause → InsMap JsString (List PredicateClause)
  | [] => groups
  | clause :: clauses =>
    groupByField (groups.set clause.field ((groups.get clause.field).getD [] ++ [clause])) clauses

/-- `tightestLo`. -/
def tightestLo (E : Engine) (existing : Option Bound) (next : Bound) : Except Err Bound :=
  match existing with
  | none => .ok next
  | some existing =>
    if typeOf existing.value ≠ typeOf next.value then .ok existing
    else do
      if ← jsLess E existing.value next.value then .ok next
      else if ← jsLess E next.value existing.value then .ok existing
      else if !next.inclusive && existing.inclusive then .ok next
      else .ok existing

/-- `tightestHi`. -/
def tightestHi (E : Engine) (existing : Option Bound) (next : Bound) : Except Err Bound :=
  match existing with
  | none => .ok next
  | some existing =>
    if typeOf existing.value ≠ typeOf next.value then .ok existing
    else do
      if ← jsLess E next.value existing.value then .ok next
      else if ← jsLess E existing.value next.value then .ok existing
      else if !next.inclusive && existing.inclusive then .ok next
      else .ok existing

/-- The loop of `decodeGroup`; `none` is `"unknown-shape"`. -/
def decodeClauses (E : Engine) : OperatorBundle → List PredicateClause →
    Except Err (Option OperatorBundle)
  | bundle, [] => .ok (some bundle)
  | bundle, clause :: clauses =>
    match clause.op with
    | .eq => decodeClauses E { bundle with eq := some clause.value } clauses
    | .gte => do
      let lo ← tightestLo E bundle.lo ⟨clause.value, true⟩
      decodeClauses E { bundle with lo := some lo } clauses
    | .gt => do
      let lo ← tightestLo E bundle.lo ⟨clause.value, false⟩
      decodeClauses E { bundle with lo := some lo } clauses
    | .lte => do
      let hi ← tightestHi E bundle.hi ⟨clause.value, true⟩
      decodeClauses E { bundle with hi := some hi } clauses
    | .lt => do
      let hi ← tightestHi E bundle.hi ⟨clause.value, false⟩
      decodeClauses E { bundle with hi := some hi } clauses
    | .in =>
      match bundle.set, clause.value with
      | none, .arr values => decodeClauses E { bundle with set := some values } clauses
      | _, _ => .ok none

/-- `decodeGroup`. -/
def decodeGroup (E : Engine) (clauses : List PredicateClause) :
    Except Err (Option OperatorBundle) :=
  decodeClauses E ⟨none, none, none, none⟩ clauses

/-- `lowerBoundImplies`. -/
def lowerBoundImplies (E : Engine) (loF : Bound) : Option Bound → Except Err Bool
  | none => .ok false
  | some loQ =>
    if typeOf loF.value ≠ typeOf loQ.value then .ok false
    else do
      if ← jsLess E loF.value loQ.value then .ok true
      else if ← jsLess E loQ.value loF.value then .ok false
      else if loF.inclusive then .ok true
      else .ok (!loQ.inclusive)

/-- `upperBoundImplies`. -/
def upperBoundImplies (E : Engine) (hiF : Bound) : Option Bound → Except Err Bool
  | none => .ok false
  | some hiQ =>
    if typeOf hiF.value ≠ typeOf hiQ.value then .ok false
    else do
      if ← jsLess E hiQ.value hiF.value then .ok true
      else if ← jsLess E hiF.value hiQ.value then .ok false
      else if hiF.inclusive then .ok true
      else .ok (!hiQ.inclusive)

/-- `values.reduce((acc, v) => (v < acc ? v : acc), acc)`. -/
def leastOf (E : Engine) : Doc → List Doc → Except Err Doc
  | acc, [] => .ok acc
  | acc, v :: values => do
    if ← jsLess E v acc then leastOf E v values else leastOf E acc values

/-- `values.reduce((acc, v) => (v > acc ? v : acc), acc)`. -/
def greatestOf (E : Engine) : Doc → List Doc → Except Err Doc
  | acc, [] => .ok acc
  | acc, v :: values => do
    if ← jsLess E acc v then greatestOf E v values else greatestOf E acc values

/-- `loFromQuery`. -/
def loFromQuery (E : Engine) (q : OperatorBundle) : Except Err (Option Bound) :=
  match q.eq, q.set with
  | some eq, _ => .ok (some ⟨eq, true⟩)
  | none, some (v :: values) => do
    let least ← leastOf E v (v :: values)
    .ok (some ⟨least, true⟩)
  | none, _ => .ok q.lo

/-- `hiFromQuery`. -/
def hiFromQuery (E : Engine) (q : OperatorBundle) : Except Err (Option Bound) :=
  match q.eq, q.set with
  | some eq, _ => .ok (some ⟨eq, true⟩)
  | none, some (v :: values) => do
    let greatest ← greatestOf E v (v :: values)
    .ok (some ⟨greatest, true⟩)
  | none, _ => .ok q.hi

/-- `contains` of an `in` filter. -/
def setContains (v : Doc) : List Doc → Except Err Bool
  | [] => .ok false
  | m :: ms => do
    if ← deepEqualDocumentValue m v then .ok true else setContains v ms

/-- Every value of the query's set is in the filter's. -/
def setCovers (set : List Doc) : List Doc → Except Err Bool
  | [] => .ok true
  | v :: values => do
    if ← setContains v set then setCovers set values else .ok false

/-- The body of `predicateImplies` for one field, on the two decoded groups.  Once the filter has
    an `eq` or an `in`, its other slots are not looked at. -/
def bundleImplies (E : Engine) (filter query : OperatorBundle) : Except Err Bool :=
  match filter.eq, filter.set with
  | some eq, _ =>
    match query.eq with
    | none => .ok false
    | some value => deepEqualDocumentValue value eq
  | none, some set =>
    match query.eq, query.set with
    | some value, _ => setContains value set
    | none, some values => setCovers set values
    | none, none => .ok false
  | none, none => do
    let loOk ← match filter.lo with
      | none => .ok true
      | some lo => do
        let loQ ← loFromQuery E query
        lowerBoundImplies E lo loQ
    if !loOk then .ok false
    else
      match filter.hi with
      | none => .ok true
      | some hi => do
        let hiQ ← hiFromQuery E query
        upperBoundImplies E hi hiQ

/-- One field: the filter's clauses against the query's. -/
def fieldImplies (E : Engine) (filterClauses : List PredicateClause)
    (queryClauses : Option (List PredicateClause)) : Except Err Bool := do
  match ← decodeGroup E filterClauses with
  | none => .ok false
  | some filter =>
    match queryClauses with
    | none => .ok false
    | some clauses =>
      match ← decodeGroup E clauses with
      | none => .ok false
      | some query => bundleImplies E filter query

/-- The field loop of `predicateImplies`. -/
def groupsImply (E : Engine) (queryGroups : InsMap JsString (List PredicateClause)) :
    List (JsString × List PredicateClause) → Except Err Bool
  | [] => .ok true
  | (field, clauses) :: groups => do
    if ← fieldImplies E clauses (queryGroups.get field) then groupsImply E queryGroups groups
    else .ok false

/-- `predicateImplies`. -/
def predicateImplies (E : Engine) (indexFilterWire queryWire : PredicateWire) : Except Err Bool :=
  groupsImply E (groupByField InsMap.empty queryWire.clauses)
    (groupByField InsMap.empty indexFilterWire.clauses).entries

end Baerly
