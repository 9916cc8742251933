import Baerly.DocId
import Baerly.Lib.InsMap
import Baerly.Query.DeepEqual

/-
  The per-field satisfiability check of a wire (`protocol/src/query/satisfiable.ts`).

  PROGRAM: group the clauses by field, keeping the tightest bounds, then look for a contradiction
  inside each group: conflicting equalities, an empty interval, an equality outside its interval
  or its sets, sets that do not meet.  A group is also rejected while it is built, when the bounds
  on one side of a field have different types.
-/

namespace Baerly

/-! ## What is left open of the language -/

/-- Two operations of the host language whose details nothing here depends on: how a number is
    printed, and `<` where its operands have to be converted. -/
structure Engine where
  numberToString : JsNumber → String
  less : Doc → Doc → Except Err Bool

mutual

/-- `JSON.stringify`, for messages. -/
def jsonStringify (E : Engine) : Doc → String
  | .null => "null"
  | .bool b => if b then "true" else "false"
  | .num n => E.numberToString n
  | .str s => quote s
  | .arr xs => "[" ++ ",".intercalate (stringifyItems E xs) ++ "]"
  | .obj ms => "\x7b" ++ ",".intercalate (stringifyMembers E ms) ++ "\x7d"

def stringifyItems (E : Engine) : List Doc → List String
  | [] => []
  | x :: xs => jsonStringify E x :: stringifyItems E xs

def stringifyMembers (E : Engine) : List (JsString × Doc) → List String
  | [] => []
  | (key, x) :: ms => (quote key ++ ":" ++ jsonStringify E x) :: stringifyMembers E ms

end

/-- The text of `typeof v`. -/
def JsType.name : JsType → String
  | .string => "string"
  | .number => "number"
  | .boolean => "boolean"
  | .object => "object"

/-! ## Scalars -/

/-- `sameComparableType`. -/
def sameComparableType : Doc → Doc → Bool
  | .str _, .str _ => true
  | .num _, .num _ => true
  | _, _ => false

/-- `compareScalar`, by the sign of its result. -/
def compareScalar : Doc → Doc → Ordering
  | .num a, .num b => if a < b then .lt else if b < a then .gt else .eq
  | .str a, .str b => if a < b then .lt else if b < a then .gt else .eq
  | _, _ => .eq

/-! ## Groups -/

/-- One side of an interval. -/
structure Bound where
  value : Doc
  inclusive : Bool

/-- `FieldGroup`. -/
structure FieldGroup where
  eqs : List Doc
  ins : List (List Doc)
  lo : Option Bound
  hi : Option Bound

/-- `tightenLower`. -/
def tightenLower (E : Engine) (group : FieldGroup) (field : JsString) (value : Doc)
    (inclusive : Bool) : Except Err FieldGroup :=
  match group.lo with
  | none => .ok { group with lo := some ⟨value, inclusive⟩ }
  | some lo =>
    if !sameComparableType lo.value value then
      .error (.mk .unsatisfiablePredicate (s!"Predicate on field {quote field} has " ++
        s!"type-incompatible lower bounds ({jsonStringify E lo.value} vs " ++
        s!"{jsonStringify E value})."))
    else
      let c := compareScalar lo.value value
      if c = .lt ∨ (c = .eq ∧ inclusive = false ∧ lo.inclusive = true) then
        .ok { group with lo := some ⟨value, inclusive⟩ }
      else .ok group

/-- `tightenUpper`. -/
def tightenUpper (E : Engine) (group : FieldGroup) (field : JsString) (value : Doc)
    (inclusive : Bool) : Except Err FieldGroup :=
  match group.hi with
  | none => .ok { group with hi := some ⟨value, inclusive⟩ }
  | some hi =>
    if !sameComparableType hi.value value then
      .error (.mk .unsatisfiablePredicate (s!"Predicate on field {quote field} has " ++
        s!"type-incompatible upper bounds ({jsonStringify E hi.value} vs " ++
        s!"{jsonStringify E value})."))
    else
      let c := compareScalar hi.value value
      if c = .gt ∨ (c = .eq ∧ inclusive = false ∧ hi.inclusive = true) then
        .ok { group with hi := some ⟨value, inclusive⟩ }
      else .ok group

/-- `applyClause`. -/
def applyClause (E : Engine) (group : FieldGroup) (clause : PredicateClause) :
    Except Err FieldGroup :=
  match clause.op with
  | .eq => .ok { group with eqs := group.eqs ++ [clause.value] }
  | .in => .ok { group with ins := group.ins ++ [inMembers clause.value] }
  | .gt => tightenLower E group clause.field clause.value false
  | .gte => tightenLower E group clause.field clause.value true
  | .lt => tightenUpper E group clause.field clause.value false
  | .lte => tightenUpper E group clause.field clause.value true

/-- The group of a field no clause has named yet. -/
def FieldGroup.empty : FieldGroup := ⟨[], [], none, none⟩

/-- `groupByField`, onto the groups so far. -/
def groupClauses (E : Engine) :
    InsMap JsString FieldGroup → List PredicateClause → Except Err (InsMap JsString FieldGroup)
  | groups, [] => .ok groups
  | groups, clause :: clauses =>
    match applyClause E ((groups.get clause.field).getD .empty) clause with
    | .ok group => groupClauses E (groups.set clause.field group) clauses
    | .error e => .error e

/-! ## The checks -/

/-- Further `eq` clauses must agree with the first one. -/
def assertEqsAgree (E : Engine) (field : JsString) (first : Doc) : List Doc → Except Err Unit
  | [] => .ok ()
  | value :: values => do
    if ← deepEqualDocumentValue first value then assertEqsAgree E field first values
    else .error (.mk .invalidConfig (s!"Conflicting equality clauses on field {quote field} " ++
      s!"({jsonStringify E first} vs {jsonStringify E value}). Predicate chains must agree on " ++
      "shared equality."))

/-- The text of a lower or upper bound's operator. -/
def Bound.lowerOp (b : Bound) : String := if b.inclusive then "gte" else "gt"

def Bound.upperOp (b : Bound) : String := if b.inclusive then "lte" else "lt"

/-- The interval must not be empty. -/
def assertInterval (E : Engine) (field : JsString) (group : FieldGroup) : Except Err Unit :=
  match group.lo, group.hi with
  | some lo, some hi =>
    if sameComparableType lo.value hi.value then
      let c := compareScalar lo.value hi.value
      if c = .gt ∨ (c = .eq ∧ (!lo.inclusive ∨ !hi.inclusive)) then
        .error (.mk .unsatisfiablePredicate (s!"Predicate on field {quote field} has empty " ++
          s!"interval (lo={jsonStringify E lo.value} {lo.lowerOp}, " ++
          s!"hi={jsonStringify E hi.value} {hi.upperOp})."))
      else .ok ()
    else .ok ()
  | _, _ => .ok ()

/-- The equality must meet the lower bound. -/
def assertEqAboveLo (E : Engine) (field : JsString) (eq : Doc) : Option Bound → Except Err Unit
  | none => .ok ()
  | some lo =>
    if !sameComparableType eq lo.value then
      .error (.mk .unsatisfiablePredicate (s!"Predicate on field {quote field} " ++
        s!"eq={jsonStringify E eq} ({(typeOf eq).name}) is type-incompatible with lower bound " ++
        s!"{jsonStringify E lo.value} ({(typeOf lo.value).name}); range ops require matching " ++
        "primitive types."))
    else
      let c := compareScalar eq lo.value
      if c = .lt ∨ (c = .eq ∧ !lo.inclusive) then
        .error (.mk .unsatisfiablePredicate (s!"Predicate on field {quote field} " ++
          s!"eq={jsonStringify E eq} excluded by lower bound {jsonStringify E lo.value} " ++
          s!"({lo.lowerOp})."))
      else .ok ()

/-- The equality must meet the upper bound. -/
def assertEqBelowHi (E : Engine) (field : JsString) (eq : Doc) : Option Bound → Except Err Unit
  | none => .ok ()
  | some hi =>
    if !sameComparableType eq hi.value then
      .error (.mk .unsatisfiablePredicate (s!"Predicate on field {quote field} " ++
        s!"eq={jsonStringify E eq} ({(typeOf eq).name}) is type-incompatible with upper bound " ++
        s!"{jsonStringify E hi.value} ({(typeOf hi.value).name}); range ops require matching " ++
        "primitive types."))
    else
      let c := compareScalar eq hi.value
      if c = .gt ∨ (c = .eq ∧ !hi.inclusive) then
        .error (.mk .unsatisfiablePredicate (s!"Predicate on field {quote field} " ++
          s!"eq={jsonStringify E eq} excluded by upper bound {jsonStringify E hi.value} " ++
          s!"({hi.upperOp})."))
      else .ok ()

/-- Does a member of the set equal `value`?  The first comparison that throws ends the search. -/
def someEqual (value : Doc) : List Doc → Except Err Bool
  | [] => .ok false
  | m :: ms => do
    if ← deepEqualDocumentValue value m then .ok true else someEqual value ms

/-- The equality must be in every set. -/
def assertEqInSets (E : Engine) (field : JsString) (eq : Doc) : List (List Doc) → Except Err Unit
  | [] => .ok ()
  | set :: sets => do
    if ← someEqual eq set then assertEqInSets E field eq sets
    else .error (.mk .unsatisfiablePredicate (s!"Predicate on field {quote field} " ++
      s!"eq={jsonStringify E eq} not present in in() set."))

/-- The members of `acc` that are in the set. -/
def keepCommon (set : List Doc) : List Doc → Except Err (List Doc)
  | [] => .ok []
  | a :: acc => do
    let found ← someEqual a set
    let rest ← keepCommon set acc
    .ok (if found then a :: rest else rest)

/-- `intersectInSets`, onto the intersection so far. -/
def intersectInSets : List Doc → List (List Doc) → Except Err (List Doc)
  | acc, [] => .ok acc
  | acc, set :: sets => do
    let acc' ← keepCommon set acc
    intersectInSets acc' sets

/-- Several sets must meet. -/
def assertSetsMeet (field : JsString) : List (List Doc) → Except Err Unit
  | first :: second :: sets => do
    let isect ← intersectInSets first (second :: sets)
    if isect.isEmpty then
      .error (.mk .unsatisfiablePredicate (s!"Predicate on field {quote field} has empty in() " ++
        "intersection across multiple clauses."))
    else .ok ()
  | _ => .ok ()

/-- The checks of one group, in order. -/
def assertGroup (E : Engine) (field : JsString) (group : FieldGroup) : Except Err Unit := do
  match group.eqs with
  | [] => assertInterval E field group
  | eq :: rest =>
    assertEqsAgree E field eq rest
    assertInterval E field group
    assertEqAboveLo E field eq group.lo
    assertEqBelowHi E field eq group.hi
    assertEqInSets E field eq group.ins
  assertSetsMeet field group.ins

/-- The checks of all groups. -/
def assertGroups (E : Engine) : List (JsString × FieldGroup) → Except Err Unit
  | [] => .ok ()
  | (field, group) :: groups => do
    assertGroup E field group
    assertGroups E groups

/-- `assertWireSatisfiable`. -/
def assertWireSatisfiable (E : Engine) (wire : PredicateWire) : Except Err Unit := do
  let groups ← groupClauses E InsMap.empty wire.clauses
  assertGroups E groups.entries

end Baerly
