import Baerly.JsonText
import Baerly.Storage

/-
  What the write path refuses before it touches the bucket: `server/src/path-segment.ts`,
  `server/src/names.ts`, `server/src/doc-id.ts`, `server/src/key-limit.ts`,
  `server/src/post-image-identity.ts`, and the equality an identical insert is recognised by
  (`jsonValueEqual` of `protocol/src/json.ts`).
-/

namespace Baerly

/-! ## Strings -/

/-- `JSON.stringify` of a string, inside a message. -/
def quote (s : JsString) : String := showKey (JSON.quote s)

/-- A high surrogate. -/
def isHighSurrogate (u : Fin 65536) : Bool := 0xD800 ≤ u.val ∧ u.val ≤ 0xDBFF

/-- A low surrogate. -/
def isLowSurrogate (u : Fin 65536) : Bool := 0xDC00 ≤ u.val ∧ u.val ≤ 0xDFFF

/-- Bytes of one code unit outside a surrogate pair; a lone surrogate is encoded as U+FFFD. -/
def unitBytes (u : Fin 65536) : Nat :=
  if u.val < 0x80 then 1 else if u.val < 0x800 then 2 else 3

/-- `new TextEncoder().encode(s).length`. -/
def utf8Length : JsString → Nat
  | [] => 0
  | [u] => unitBytes u
  | u :: v :: us =>
    if isHighSurrogate u ∧ isLowSurrogate v then 4 + utf8Length us
    else unitBytes u + utf8Length (v :: us)

/-- `MAX_SEGMENT_BYTES`. -/
def maxSegmentBytes : Nat := 256

/-- `MAX_KEY_BYTES`. -/
def maxKeyBytes : Nat := 1024

/-- `CONTROL_CHARS`: C0, DEL and C1. -/
def isControlChar (u : Fin 65536) : Bool :=
  u.val ≤ 0x1F ∨ (0x7F ≤ u.val ∧ u.val ≤ 0x9F)

/-- `assertNameNotReserved`. -/
def assertNameNotReserved (name : JsString) (context : String) : Except Err Unit :=
  if name.head? = some 95 then
    .error (.mk .invalidConfig (context ++ ": " ++ quote name ++ " is reserved — names beginning " ++
      "with \"_\" are reserved for system use. See docs/adr/003-layout-versioning-cordon.md."))
  else .ok ()

/-- `assertPathSegment`, without a verb. -/
def assertPathSegment (value : JsString) (role : String) : Except Err Unit :=
  if value = [] then
    .error (.mk .invalidConfig s!"{role} must be a non-empty string")
  else if value.contains slash then
    .error (.mk .invalidConfig (role ++ " may not contain \"/\": " ++ quote value))
  else if value = js "." ∨ value = js ".." then
    .error (.mk .invalidConfig (role ++ " may not be \".\" or \"..\": " ++ quote value))
  else if value.any isControlChar then
    .error (.mk .invalidConfig s!"{role} may not contain control characters")
  else if maxSegmentBytes < utf8Length value then
    .error (.mk .invalidConfig s!"{role} is too long (> {maxSegmentBytes} bytes)")
  else assertNameNotReserved value role

/-- `assertKeyWithinLimit`. -/
def assertKeyWithinLimit (key : Key) : Except Err Unit :=
  if maxKeyBytes < utf8Length key then
    .error (.mk .invalidConfig (s!"object key exceeds {maxKeyBytes} bytes (got " ++
      s!"{utf8Length key}): " ++ quote (key.take 80) ++ "…"))
  else .ok ()

/-! ## Document ids -/

/-- `assertStoredDocId`. -/
def assertStoredDocId (id : JsString) : Except Err Unit :=
  assertPathSegment id "_id"

/-- `assertDocId`; `normalizeNfc` is `String.prototype.normalize("NFC")`. -/
def assertDocId (normalizeNfc : JsString → JsString) (id : JsString) : Except Err Unit := do
  assertStoredDocId id
  if id ≠ normalizeNfc id then
    .error (.mk .invalidConfig
      ("_id must be in Unicode Normalization Form C: " ++ quote id))
  else .ok ()

/-- `insertAlreadyExists`. -/
def insertAlreadyExists (collection docId : JsString) : Err :=
  .baerly .alreadyExists ("insert: _id " ++ quote docId ++ " already exists in collection " ++
    quote collection) (some docId) false

/-- `assertPostImageIdentity` with code `InvalidConfig`: the post-image is an object whose own
    `_id` is the string it is stored under. -/
def assertPostImageIdentity (docId : JsString) : Option Doc → Except Err Unit
  | some (.obj ms) =>
    match ms.lookup (js "_id") with
    | none => .error (.mk .invalidConfig
        "post-image: after._id must be an own enumerable data property")
    | some v =>
      if v = .str docId then .ok ()
      else .error (.mk .invalidConfig "post-image: after._id must equal doc_id")
  | _ => .error (.mk .invalidConfig "post-image: after must be a document object")

/-- What the check establishes. -/
theorem assertPostImageIdentity_ok {docId : JsString} {body : Option Doc} {u : Unit}
    (h : assertPostImageIdentity docId body = .ok u) :
    ∃ doc, body = some doc ∧ doc.member (js "_id") = some (.str docId) := by
  unfold assertPostImageIdentity at h
  split at h
  next ms =>
    split at h
    next => cases h
    next v hv =>
      split at h
      next heq => exact ⟨.obj ms, rfl, by rw [← heq]; exact hv⟩
      next => cases h
  next => cases h

/-! ## Equality of JSON values -/

mutual

/-- `jsonValueEqual`: arrays item by item, objects by key set, scalars by `===`. -/
def jsonValueEqual : Doc → Doc → Bool
  | .null, .null => true
  | .bool a, .bool b => a = b
  | .num a, .num b => a = b
  | .str a, .str b => a = b
  | .arr xs, .arr ys => jsonItemsEqual xs ys
  | .obj xs, .obj ys => decide (xs.length = ys.length) && jsonMembersEqual xs ys
  | _, _ => false

def jsonItemsEqual : List Doc → List Doc → Bool
  | [], [] => true
  | x :: xs, y :: ys => jsonValueEqual x y && jsonItemsEqual xs ys
  | _, _ => false

/-- Every member of the left object is an equal member of the right one. -/
def jsonMembersEqual : List (JsString × Doc) → List (JsString × Doc) → Bool
  | [], _ => true
  | (key, x) :: xs, right =>
    match right.lookup key with
    | none => false
    | some y => jsonValueEqual x y && jsonMembersEqual xs right

end

/-- `insertReplaysRow`; a document here is already what `JSON.parse` returns. -/
def insertReplaysRow (body : Doc) (stored : Option Doc) : Bool :=
  stored.any fun row => jsonValueEqual body row

end Baerly
