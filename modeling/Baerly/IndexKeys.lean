import Baerly.Indexes
import Baerly.JsonText
import Baerly.Property
import Baerly.Lib.Base32
import Baerly.Lib.BigEndian

/-
  Index markers: which keys a row has in the bucket (`server/src/indexes.ts`).

  PROGRAM: a value becomes a type tag and a payload, base-32 encoded to a path segment; a marker key
  is `<prefix>/index/<name>/<segment>/…/<docId>.json`.  A row has a marker under an index only if
  every indexed field of it is present and not `null`.  A field with a name that objects inherit is
  present in every row: the inherited function is projected like any other value.
-/

namespace Baerly

/-! ## Segments -/

/-- The bits of a double: sign, then magnitude. -/
def float64Bits (n : JsNumber) : Nat :=
  if 0 ≤ n.ord then n.ord.toNat else 2 ^ 63 + n.ord.natAbs

/-- `encodeNumberPayload`; a number is never `NaN` here, and `-0` is `0`. -/
def encodeNumberPayload (n : JsNumber) : List (Fin 256) :=
  match BigEndian.bigEndian 8 (float64Bits n) with
  | [] => []
  | b :: bs => if b.val < 0x80 then (b ^^^ 0x80) :: bs else (b :: bs).map BigEndian.flip

/-- `encodeBytes`. -/
def encodeBytes (N : NumberText) : Doc → List (Fin 256)
  | .null => [0x10]
  | .bool false => [0x20]
  | .bool true => [0x21]
  | .num n => 0x30 :: encodeNumberPayload n
  | .str s => 0x40 :: Utf8.encode s
  | v => 0x50 :: Utf8.encode (JSON.stringify N v)

/-- `B32_ALPHABET[d]`. -/
def b32Unit (d : Fin 32) : Fin 65536 :=
  if d.val < 10 then Fin.ofNat 65536 (48 + d.val) else Fin.ofNat 65536 (87 + d.val)

/-- `encodeIndexValue`. -/
def encodeIndexValue (N : NumberText) (v : Doc) : JsString :=
  (Base32.encode (encodeBytes N v)).map b32Unit

/-- The value a segment is written for.  A missing one counts as `null`, and `Object.prototype` is
    written like an object without members; a function has no JSON text. -/
def Property.encoded : Property → Option Doc
  | .undefined => some .null
  | .value v => some v
  | .objectPrototype => some (.obj [])
  | .method _ => none

/-- `encodeBytes`, of what was read from a document. -/
def Property.bytes (N : NumberText) (p : Property) : List (Fin 256) :=
  match p.encoded with
  | some v => encodeBytes N v
  | none => [0x50]

/-- `encodeIndexValue`, of what was read from a document. -/
def Property.segment (N : NumberText) (p : Property) : JsString :=
  (Base32.encode (p.bytes N)).map b32Unit

@[simp] theorem Property.bytes_value (N : NumberText) (v : Doc) :
    (Property.value v).bytes N = encodeBytes N v := rfl

@[simp] theorem Property.segment_value (N : NumberText) (v : Doc) :
    (Property.value v).segment N = encodeIndexValue N v := rfl

/-! ## Keys -/

/-- `indexKeyPrefix`. -/
def indexKeyPrefix (logPrefix : Key) (indexName : JsString) : Key :=
  logPrefix ++ js "/index/" ++ indexName ++ js "/"

/-- `indexKeyFor`. -/
def indexKeyFor (N : NumberText) (logPrefix : Key) (d : IndexDefinition) (values : List Property)
    (docId : JsString) : Key :=
  let segments := List.intercalate (js "/") (values.map (Property.segment N))
  logPrefix ++ js "/index/" ++ d.name ++ js "/" ++ segments ++ js "/" ++ docId ++ js ".json"

/-- The loop of `projectIndexValues`, with the values so far. -/
def projectFields (name : JsString) (body : Doc) :
    List JsString → List Property → Except Err (Option (List Property))
  | [], values => .ok (some values)
  | field :: fields, values =>
    if field.contains 46 then
      .error (.mk .schemaError (s!"index {showKey name}: dotted-path \"on\" fields not yet " ++
        s!"supported (got {quote field})"))
    else
      match body.property field with
      | .undefined => .ok none
      | .value .null => .ok none
      | .value (.arr _) => .error (.mk .schemaError (s!"index {showKey name}: cannot index array " ++
          s!"field \"{showKey field}\" — multi-value indexes are not supported yet"))
      | v => projectFields name body fields (values ++ [v])

/-- `projectIndexValues`. -/
def projectIndexValues (d : IndexDefinition) : Option Doc → Except Err (Option (List Property))
  | none => .ok none
  | some body => projectFields d.name body d.on.tuple []

/-- Does the filter of an index, if it has one, keep the row? -/
def keptByFilter (d : IndexDefinition) (body : Option Doc) : Except Err Bool :=
  match d.predicate, body with
  | some filter, some body => matchesWire filter body
  | _, _ => .ok true

/-- `allIndexKeysFor`. -/
def allIndexKeysFor (N : NumberText) (logPrefix : Key) :
    List IndexDefinition → Option Doc → JsString → Except Err (List Key)
  | [], _, _ => .ok []
  | d :: defs, body, docId => do
    if ← keptByFilter d body then
      match ← projectIndexValues d body with
      | none => allIndexKeysFor N logPrefix defs body docId
      | some values =>
        let rest ← allIndexKeysFor N logPrefix defs body docId
        .ok (indexKeyFor N logPrefix d values docId :: rest)
    else allIndexKeysFor N logPrefix defs body docId

end Baerly
