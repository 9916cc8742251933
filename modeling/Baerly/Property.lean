import Baerly.Json

/-
  Reading a property of a value: `v[key]`.

  PROGRAM: the query path reads a document with plain brackets.  A plain object answers a key it does
  not own through `Object.prototype`: eleven names give a function, and `__proto__` gives
  `Object.prototype` itself, whose own `__proto__` is `null`.  Everything else is `undefined`.

  `JSON.parse` makes `__proto__` an own key like any other, and an own key is found first.
-/

namespace Baerly

/-- The names every object inherits as functions. -/
def inheritedMethods : List JsString :=
  [js "constructor", js "__defineGetter__", js "__defineSetter__", js "hasOwnProperty",
    js "__lookupGetter__", js "__lookupSetter__", js "isPrototypeOf", js "propertyIsEnumerable",
    js "toString", js "valueOf", js "toLocaleString"]

/-- `__proto__`, which an object without such a member inherits as an accessor. -/
def protoName : JsString := js "__proto__"

/-- What reading a property gives. -/
inductive Property where
  | undefined
  | value (v : Doc)
  | objectPrototype
  /-- The function of that name on `Object.prototype`. -/
  | method (name : JsString)
  deriving DecidableEq

/-- What an object inherits under a name. -/
def inherited (key : JsString) : Property :=
  if key = protoName then .objectPrototype
  else if inheritedMethods.contains key then .method key
  else .undefined

/-- `o[key]`, of a plain object with these members. -/
def readMember (members : List (JsString × Doc)) (key : JsString) : Property :=
  match members.lookup key with
  | some v => .value v
  | none => inherited key

/-- `Object.prototype[key]`. -/
def readPrototype (key : JsString) : Property :=
  if key = protoName then .value .null
  else if inheritedMethods.contains key then .method key
  else .undefined

namespace Property

/-- `typeof p === "object"`, no `null` and no array. -/
def isPlainObject : Property → Bool
  | .value (.obj _) => true
  | .objectPrototype => true
  | _ => false

/-- `p[key]`, of a plain object; nothing else is read here. -/
def read : Property → JsString → Property
  | .value (.obj members), key => readMember members key
  | .objectPrototype, key => readPrototype key
  | _, _ => .undefined

/-- `p === undefined || p === null`. -/
def isNullish : Property → Bool
  | .undefined => true
  | .value .null => true
  | _ => false

@[simp] theorem isPlainObject_obj (members : List (JsString × Doc)) :
    (value (.obj members)).isPlainObject = true := rfl

@[simp] theorem isPlainObject_prototype : objectPrototype.isPlainObject = true := rfl

@[simp] theorem read_obj (members : List (JsString × Doc)) (key : JsString) :
    (value (.obj members)).read key = readMember members key := rfl

theorem isNullish_eq_false {p : Property} (hundefined : p ≠ .undefined) (hnull : p ≠ .value .null) :
    p.isNullish = false := by
  cases p with
  | undefined => exact absurd rfl hundefined
  | value v => cases v <;> first | rfl | exact absurd rfl hnull
  | _ => rfl

end Property

/-- `doc[field]`, of a document. -/
def Json.property (field : JsString) (doc : Doc) : Property := (Property.value doc).read field

theorem readMember_own {members : List (JsString × Doc)} {key : JsString} {v : Doc}
    (h : members.lookup key = some v) : readMember members key = .value v := by
  rw [readMember, h]

theorem readMember_inherited {members : List (JsString × Doc)} {key : JsString}
    (h : members.lookup key = none) : readMember members key = inherited key := by
  rw [readMember, h]

/-- No inherited property is a JSON value. -/
theorem inherited_ne_value (key : JsString) (v : Doc) : inherited key ≠ .value v := by
  unfold inherited
  split
  · exact fun h => by cases h
  · split
    · exact fun h => by cases h
    · exact fun h => by cases h

/-- A JSON value is found exactly where it is an own member. -/
theorem readMember_value {members : List (JsString × Doc)} {key : JsString} {v : Doc} :
    readMember members key = .value v ↔ members.lookup key = some v := by
  cases h : members.lookup key with
  | none =>
    rw [readMember_inherited h]
    exact ⟨fun hv => absurd hv (inherited_ne_value key v), fun hv => (by cases hv)⟩
  | some w =>
    rw [readMember_own h]
    exact ⟨fun hv => (by cases hv; rfl), fun hv => (by cases hv; rfl)⟩

/-- What stands at the end of a path of own members. -/
def ownAt : List JsString → Option Doc → Option Doc
  | [], cursor => cursor
  | seg :: segs, some (.obj members) => ownAt segs (members.lookup seg)
  | _ :: _, _ => none

theorem ownAt_none (path : List JsString) : ownAt path none = none := by
  cases path <;> rfl

/-- A document has a JSON value where it is an own member. -/
theorem Json.property_value {doc : Doc} {field : JsString} {v : Doc} :
    doc.property field = .value v ↔ doc.member field = some v := by
  cases doc with
  | obj members => exact readMember_value
  | _ => exact ⟨fun h => (by cases h), fun h => (by cases h)⟩

end Baerly
