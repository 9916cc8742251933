import Baerly.Errors
import Baerly.Property

/-
  Predicate wires and their evaluation on a document (`protocol/src/query/wire.ts`,
  `protocol/src/query/matches.ts`, `protocol/src/query/_internals.ts`).

  A wire is a conjunction of clauses `op field value`.  Evaluation can fail: the source walks an
  `eq` value with `Object.keys`, which throws on a `null` that the validator does not look for
  inside nested values.  So the evaluators return `Except`, and "the document satisfies the wire"
  is `= .ok true`.

  Object values have distinct keys (`Json.wf`), which every value `JSON.parse` builds has; a clause
  carries that proof.  A document is read as `Baerly.Property` says, inherited names and all.
-/

namespace Baerly

/-! ## Values -/

namespace Json

variable {N : Type}

mutual

/-- Every object inside has distinct keys. -/
def wf : Json N → Bool
  | .arr xs => wfList xs
  | .obj ms => decide (ms.map Prod.fst).Nodup && wfMembers ms
  | _ => true

def wfList : List (Json N) → Bool
  | [] => true
  | x :: xs => wf x && wfList xs

def wfMembers : List (JsString × Json N) → Bool
  | [] => true
  | (_, x) :: ms => wf x && wfMembers ms

end

@[simp] theorem wf_str (s : JsString) : wf (.str s : Json N) = true := rfl

/-- `Object.keys`, paired with the values: members of an object, indexed items of an array. -/
def ownEntries : Json N → List (JsString × Json N)
  | .obj ms => ms
  | .arr xs => xs.zipIdx.map fun p => (js (toString p.2), p.1)
  | _ => []

end Json

/-- What `Object.keys(null)` throws. -/
def typeError : Err := .other "TypeError: Cannot convert undefined or null to object"

/-- `typeof v`. -/
inductive JsType where
  | string | number | boolean | object
  deriving DecidableEq

/-- `typeof`, on a JSON value. -/
def typeOf {N : Type} : Json N → JsType
  | .str _ => .string
  | .num _ => .number
  | .bool _ => .boolean
  | _ => .object

/-! ## Wires -/

/-- `PredicateOpName`. -/
inductive PredicateOp where
  | eq | gt | gte | lt | lte | in
  deriving DecidableEq, Repr

/-- `PredicateClause`; an `in` clause carries an array value. -/
structure PredicateClause where
  op : PredicateOp
  field : JsString
  value : Doc
  wf : value.wf = true

/-- `PredicateWire`. -/
structure PredicateWire where
  clauses : List PredicateClause

/-! ## Evaluation -/

/-- `field.split(".")`. -/
def splitDots : JsString → List JsString
  | [] => [[]]
  | u :: us =>
    if u = 46 then [] :: splitDots us
    else
      match splitDots us with
      | [] => [[u]]
      | seg :: segs => (u :: seg) :: segs

/-- The traversal of `lookupPath`: only plain objects are entered. -/
def lookupSegments : List JsString → Property → Property
  | [], cursor => cursor
  | seg :: segs, cursor =>
    if cursor.isPlainObject then lookupSegments segs (cursor.read seg) else .undefined

/-- `lookupPath`. -/
def lookupPath (doc : Doc) (field : JsString) : Property :=
  if field.contains 46 then lookupSegments (splitDots field) (.value doc)
  else doc.property field

/-- What is no object is not entered. -/
theorem lookupSegments_plain {cursor : Property} (h : cursor.isPlainObject = false) (seg : JsString)
    (segs : List JsString) : lookupSegments (seg :: segs) cursor = .undefined := by
  rw [lookupSegments, if_neg (by rw [h]; exact Bool.false_ne_true)]

/-- From something inherited no path leads to a value but `null`. -/
theorem lookupSegments_inherited {cursor : Property} (hcursor : ∀ v, cursor ≠ .value v)
    (path : List JsString) {s : Doc} (hs : s ≠ .null) : lookupSegments path cursor ≠ .value s := by
  have hleaf : ∀ {p : Property} (segs : List JsString), p.isPlainObject = false → p ≠ .value s →
      lookupSegments segs p ≠ .value s := by
    intro p segs hplain hp
    cases segs with
    | nil => exact hp
    | cons seg segs =>
      rw [lookupSegments_plain hplain]
      exact fun h => by cases h
  cases path with
  | nil => exact hcursor s
  | cons seg segs =>
    cases cursor with
    | objectPrototype =>
      rw [lookupSegments, if_pos Property.isPlainObject_prototype]
      have hread : (Property.objectPrototype).read seg = readPrototype seg := rfl
      rw [hread]
      unfold readPrototype
      split
      · exact hleaf segs rfl fun h => hs (by cases h; rfl)
      · split
        · exact hleaf segs rfl fun h => by cases h
        · exact hleaf segs rfl fun h => by cases h
    | value v => exact absurd rfl (hcursor v)
    | _ => exact hleaf _ rfl (hcursor s)

/-- **A path to a value other than `null` is a path of own members.** -/
theorem lookupSegments_value {s : Doc} (hs : s ≠ .null) (path : List JsString) (v : Doc) :
    lookupSegments path (.value v) = .value s ↔ ownAt path (some v) = some s := by
  induction path generalizing v with
  | nil => simp [lookupSegments, ownAt]
  | cons seg path ih =>
    cases v with
    | obj members =>
      rw [lookupSegments, if_pos (Property.isPlainObject_obj members), Property.read_obj, ownAt]
      cases hlook : members.lookup seg with
      | some u =>
        rw [readMember_own hlook]
        exact ih u
      | none =>
        rw [readMember_inherited hlook, ownAt_none]
        refine ⟨fun h => absurd h ?_, fun h => by cases h⟩
        exact lookupSegments_inherited (inherited_ne_value seg) path hs
    | _ =>
      rw [lookupSegments_plain rfl]
      exact ⟨fun h => (by cases h), fun h => (by cases h)⟩

mutual

/-- `matchesEq`: scalars by `===`, object values member by member against a plain object. -/
def matchesEq : Doc → Property → Except Err Bool
  | .null, actual => if actual.isPlainObject then .error typeError else .ok false
  | .obj ms, actual => if actual.isPlainObject then matchesMembers ms actual else .ok false
  | .arr xs, actual => if actual.isPlainObject then matchesItems xs 0 actual else .ok false
  | .bool b, actual => .ok (actual = .value (.bool b))
  | .num n, actual => .ok (actual = .value (.num n))
  | .str s, actual => .ok (actual = .value (.str s))

def matchesMembers : List (JsString × Doc) → Property → Except Err Bool
  | [], _ => .ok true
  | (key, expected) :: ms, actual =>
    match matchesEq expected (actual.read key) with
    | .ok true => matchesMembers ms actual
    | r => r

/-- The members of an array value are its indices. -/
def matchesItems : List Doc → Nat → Property → Except Err Bool
  | [], _, _ => .ok true
  | expected :: xs, i, actual =>
    match matchesEq expected (actual.read (js (toString i))) with
    | .ok true => matchesItems xs (i + 1) actual
    | r => r

end

/-- `matchesIn`. -/
def matchesIn : List Doc → Property → Except Err Bool
  | [], _ => .ok false
  | m :: ms, actual =>
    match matchesEq m actual with
    | .ok false => matchesIn ms actual
    | r => r

/-- `compareGT(actual, bound, inclusive)`. -/
def compareGT (actual : Property) (bound : Doc) (inclusive : Bool) : Bool :=
  match bound, actual with
  | .str b, .value (.str a) => if inclusive then b ≤ a else b < a
  | .num b, .value (.num a) => if inclusive then b ≤ a else b < a
  | _, _ => false

/-- `compareLT(actual, bound, inclusive)`. -/
def compareLT (actual : Property) (bound : Doc) (inclusive : Bool) : Bool :=
  match bound, actual with
  | .str b, .value (.str a) => if inclusive then a ≤ b else a < b
  | .num b, .value (.num a) => if inclusive then a ≤ b else a < b
  | _, _ => false

/-- The members of an `in` value; a value that is no array has none (the source iterates it, and
    the validator has rejected it). -/
def inMembers : Doc → List Doc
  | .arr xs => xs
  | _ => []

/-- `matchesClause`. -/
def matchesClause (clause : PredicateClause) (actual : Property) : Except Err Bool :=
  match clause.op with
  | .eq => matchesEq clause.value actual
  | .in => matchesIn (inMembers clause.value) actual
  | .gt => .ok (compareGT actual clause.value false)
  | .gte => .ok (compareGT actual clause.value true)
  | .lt => .ok (compareLT actual clause.value false)
  | .lte => .ok (compareLT actual clause.value true)

/-- The loop of `matchesWire`. -/
def matchesClauses : List PredicateClause → Doc → Except Err Bool
  | [], _ => .ok true
  | clause :: clauses, doc =>
    match matchesClause clause (lookupPath doc clause.field) with
    | .ok true => matchesClauses clauses doc
    | r => r

/-- `matchesWire`. -/
def matchesWire (wire : PredicateWire) (doc : Doc) : Except Err Bool :=
  matchesClauses wire.clauses doc

/-- A document satisfies a wire iff it satisfies every clause. -/
theorem matchesClauses_iff (clauses : List PredicateClause) (doc : Doc) :
    matchesClauses clauses doc = .ok true ↔
      ∀ c ∈ clauses, matchesClause c (lookupPath doc c.field) = .ok true := by
  induction clauses with
  | nil => simp [matchesClauses]
  | cons c cs ih =>
    rw [matchesClauses]
    split
    next h => simp [h, ih]
    next r hne =>
      constructor
      · intro h
        exact absurd h (by simpa using hne)
      · intro h
        exact absurd (h c (by simp)) (by simpa using hne)

theorem matchesWire_iff (wire : PredicateWire) (doc : Doc) :
    matchesWire wire doc = .ok true ↔
      ∀ c ∈ wire.clauses, matchesClause c (lookupPath doc c.field) = .ok true :=
  matchesClauses_iff wire.clauses doc

/-! ## The primary-key wire -/

/-- `singleIdFromPredicate`: exactly one clause, an `eq` of `_id` with a string. -/
def singleIdFromPredicate : Option PredicateWire → Option JsString
  | none => none
  | some wire =>
    match wire.clauses with
    | [clause] =>
      if clause.op = .eq ∧ clause.field = js "_id" then
        match clause.value with
        | .str id => some id
        | _ => none
      else none
    | _ => none

/-- The wire `{ clauses: [{ op: "eq", field: "_id", value: id }] }`. -/
def idWire (id : JsString) : PredicateWire :=
  ⟨[⟨.eq, js "_id", .str id, rfl⟩]⟩

/-- A document satisfies a primary-key wire iff its `_id` is that string. -/
theorem matchesWire_of_singleId {wire : PredicateWire} {id : JsString}
    (h : singleIdFromPredicate (some wire) = some id) (doc : Doc) :
    matchesWire wire doc = .ok (decide (doc.member (js "_id") = some (.str id))) := by
  obtain ⟨clauses⟩ := wire
  match clauses, h with
  | [⟨op, field, value, hwf⟩], h =>
    simp only [singleIdFromPredicate] at h
    split at h
    next hop =>
      obtain ⟨rfl, rfl⟩ := hop
      split at h
      next s hs =>
        cases h
        have hpath : lookupPath doc (js "_id") = doc.property (js "_id") := by
          unfold lookupPath
          rw [if_neg (by decide)]
        simp only [matchesWire, matchesClauses, matchesClause, hpath, matchesEq,
          Json.property_value]
        by_cases hid : doc.member (js "_id") = some (.str id)
        · simp [hid]
        · simp [hid]
      next => cases h
    next => cases h

end Baerly
