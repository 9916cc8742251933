import Baerly.JsonOrder
import Baerly.SafeInteger

/-
  The chunked snapshot codecs: `server/src/snapshot-codec.ts`, `server/src/snapshot-doc-id.ts`,
  `server/src/snapshot-chunk.ts` and `server/src/snapshot-manifest.ts`.

  PROGRAM: a chunk is a run of documents in id order, a manifest lists the chunks of a snapshot.
  Both are stored under a key that holds the hash of their bytes.  An encoder validates a value,
  rebuilds it with the members of every object in canonical order, and prints it.  A decoder
  checks the bytes against the key, parses them, validates the same way and accepts only the bytes
  the encoder would have printed.

  Values are parsed JSON: what a JavaScript value can hold beyond that (a symbol key, an accessor,
  a hole, a cycle, a non-finite number) the validator refuses, and the tree type does not have.
-/

namespace Baerly

open Utf8 (Byte)

/-! ## Document ids -/

/-- The code points of an id, as `codePointAt` reads them: a lone surrogate is its own value. -/
def idPoints : JsString → List Nat
  | [] => []
  | [u] => [u.val]
  | u :: v :: us =>
    if Utf8.high u && Utf8.low v then Utf8.pair u v :: idPoints us
    else u.val :: idPoints (v :: us)

/-- The comparing loop. -/
def comparePoints : List Nat → List Nat → Ordering
  | [], [] => .eq
  | [], _ :: _ => .lt
  | _ :: _, [] => .gt
  | a :: as, b :: bs => if a = b then comparePoints as bs else if a < b then .lt else .gt

/-- `compareDocIds`: by code point, a proper beginning first. -/
def compareDocIds (left right : JsString) : Ordering :=
  comparePoints (idPoints left) (idPoints right)

/-- `assertSnapshotDocId`. -/
def assertSnapshotDocId (id : JsString) : Except Err Unit := do
  assertPathSegment id "_id"
  if Utf8.wellFormed id then .ok ()
  else .error (.mk .invalidConfig "_id may not contain isolated UTF-16 surrogates")

/-! ## Failures -/

/-- `CodecCode`: caller ingress or stored data. -/
inductive CodecCode where
  | invalidConfig | invalidResponse
  deriving DecidableEq

def CodecCode.code : CodecCode → Code
  | .invalidConfig => .invalidConfig
  | .invalidResponse => .invalidResponse

/-- `CodecFail`. -/
abbrev CodecFail := CodecCode → String → Err

/-- `makeCodecFail`. -/
def makeCodecFail (artifact : String) : CodecFail :=
  fun code message => .mk code.code s!"{artifact}: {message}"

/-- `failChunk`. -/
def failChunk : CodecFail := makeCodecFail "snapshot chunk"

/-- `failManifest`. -/
def failManifest : CodecFail := makeCodecFail "snapshot manifest"

/-- `if (!ok) fail(...)`. -/
def check (ok : Prop) [Decidable ok] (failure : Err) : Except Err Unit :=
  if ok then .ok () else .error failure

/-- `typeof value === "string"`. -/
def asString (value : Option Doc) (failure : Err) : Except Err JsString :=
  match value with
  | some (.str s) => .ok s
  | _ => .error failure

/-- `Array.isArray(value)`. -/
def asArray (value : Option Doc) (failure : Err) : Except Err (List Doc) :=
  match value with
  | some (.arr xs) => .ok xs
  | _ => .error failure

/-- A non-negative safe integer. -/
def asSafeNat (value : Option Doc) (failure : Err) : Except Err Nat :=
  match value with
  | some (.num x) =>
    match x.safeNat? with
    | some n => .ok n
    | none => .error failure
  | _ => .error failure

/-- The values of a list of results, or its first error. -/
def collect {α : Type} : List (Except Err α) → Except Err (List α)
  | [] => .ok []
  | result :: results => do
    let x ← result
    let xs ← collect results
    .ok (x :: xs)

/-! ## Shared machinery -/

/-- `MAX_CHUNK_BYTES`. -/
def maxChunkBytes : Nat := 1024 * 1024

/-- `MAX_CHUNK_ROWS`. -/
def maxChunkRows : Nat := 4096

/-- `MAX_MANIFEST_BYTES`. -/
def maxManifestBytes : Nat := 64 * 1024

/-- `MAX_MANIFEST_CHUNKS`. -/
def maxManifestChunks : Nat := 32

/-- `INCARNATION_PATTERN`. -/
def isIncarnation (s : JsString) : Bool :=
  s.length = 32 ∧ s.all isHex

/-- `encodeJsonBytes`. -/
def encodeJsonBytes (N : NumberText) (value : Doc) : List Byte :=
  Utf8.encode (JSON.stringify N value)

/-- `decodeJsonBytes`. -/
def decodeJsonBytes (N : NumberText) (bytes : List Byte) : Option Doc :=
  JSON.parse N (Utf8.decodeText bytes)

/-- `assertExactFields`, with the members it found. -/
def assertExactFields (value : Doc) (expected : List JsString) (place : String) (code : CodecCode)
    (fail : CodecFail) : Except Err (List (JsString × Doc)) :=
  match value with
  | .obj ms =>
    if ms.length = expected.length ∧ ∀ key ∈ expected, (ms.lookup key).isSome then .ok ms
    else .error (fail code s!"{place} must contain exactly the required fields")
  | _ => .error (fail code s!"{place} must be an object")

/-- `assertCodecDocId`, with the id. -/
def assertCodecDocId (value : Option Doc) (place : String) (code : CodecCode) (fail : CodecFail) :
    Except Err JsString := do
  let id ← asString value (fail code s!"{place} must be a string")
  match assertSnapshotDocId id with
  | .ok () => .ok id
  | .error _ => .error (fail code s!"{place} is invalid")

/-- The two stored artifacts. -/
inductive ArtifactKind where
  | manifest | chunk
  deriving DecidableEq

/-- How the messages name them. -/
def ArtifactKind.name : ArtifactKind → String
  | .manifest => "manifest"
  | .chunk => "chunk"

/-- The directory of the artifacts under a collection. -/
def ArtifactKind.dir : ArtifactKind → JsString
  | .manifest => js "/_v2/snapshot/manifests/"
  | .chunk => js "/_v2/snapshot/chunks/"

/-- `ParsedArtifactKey`. -/
structure ParsedArtifactKey where
  collectionPrefix : Key
  incarnation : JsString
  digest : JsString
  deriving DecidableEq

/-- A line terminator, which `.` does not match. -/
def isLineTerminator (u : Fin 65536) : Bool :=
  u.val = 0x0A || u.val = 0x0D || u.val = 0x2028 || u.val = 0x2029

/-- `MANIFEST_KEY_PATTERN` and `CHUNK_KEY_PATTERN`.  What follows the prefix has one length, so
    there is one place to cut. -/
def matchArtifactKey (kind : ArtifactKind) (key : Key) : Option ParsedArtifactKey :=
  let cut := key.length - (kind.dir.length + 109)
  let tail := (key.drop cut).drop kind.dir.length
  let found : ParsedArtifactKey :=
    { collectionPrefix := key.take cut
      incarnation := tail.take 32
      digest := (tail.drop 40).take 64 }
  if 0 < cut ∧ found.collectionPrefix.any isLineTerminator = false ∧
      (key.drop cut).take kind.dir.length = kind.dir ∧ isIncarnation found.incarnation ∧
      (tail.drop 32).take 8 = js "/sha256/" ∧ isSha256 found.digest ∧
      (tail.drop 40).drop 64 = js ".json" then some found
  else none

/-- `parseArtifactKey`. -/
def parseArtifactKey (key : Key) (kind : ArtifactKind) (code : CodecCode) (fail : CodecFail) :
    Except Err ParsedArtifactKey :=
  if maxKeyBytes < utf8Length key then
    .error (fail code s!"{kind.name} key is invalid or exceeds {maxKeyBytes} bytes")
  else
    match matchArtifactKey kind key with
    | none => .error (fail code s!"{kind.name} key does not match the schema-v2 grammar")
    | some found =>
      if found.collectionPrefix.getLast? = some slash then
        .error (fail code s!"{kind.name} key collection prefix contains an empty trailing segment")
      else .ok found

/-- The text of an artifact key. -/
def artifactKeyText (kind : ArtifactKind) (collectionPrefix incarnation digest : JsString) : Key :=
  collectionPrefix ++ (kind.dir ++ (incarnation ++ (js "/sha256/" ++ (digest ++ js ".json"))))

/-- The key builder of either artifact. -/
def artifactKey (kind : ArtifactKind) (fail : CodecFail)
    (collectionPrefix incarnation digest : JsString) : Except Err Key := do
  check (¬ (collectionPrefix = [] ∨ collectionPrefix.getLast? = some slash))
    (fail .invalidConfig "collection prefix must be non-empty without a trailing slash")
  check (isIncarnation incarnation)
    (fail .invalidConfig "incarnation must be 32 lowercase hex characters")
  check (isSha256 digest) (fail .invalidConfig "digest must be 64 lowercase hex characters")
  let key := artifactKeyText kind collectionPrefix incarnation digest
  assertKeyWithinLimit key
  .ok key

/-- `snapshotChunkKey`. -/
def snapshotChunkKey : (collectionPrefix incarnation digest : JsString) → Except Err Key :=
  artifactKey .chunk failChunk

/-- `snapshotManifestKey`. -/
def snapshotManifestKey : (collectionPrefix incarnation digest : JsString) → Except Err Key :=
  artifactKey .manifest failManifest

/-! ## Canonical documents -/

/-- `canonicalKeyOrder`: array indices first, in numeric order, then code-unit order. -/
def canonicalLe (left right : JsString) : Bool :=
  match Json.arrayIndex left, Json.arrayIndex right with
  | some i, some j => i ≤ j
  | some _, none => true
  | none, some _ => false
  | none, none => left ≤ right

mutual

/-- `canonicalizeDocumentValue`. -/
def canonicalizeDocumentValue (code : CodecCode) : (place : String) → Doc → Except Err Doc
  | _, .bool b => .ok (.bool b)
  | _, .num n => .ok (.num n)
  | _, .str s => .ok (.str s)
  | place, .null => .error (failChunk code s!"{place} contains a value outside DocumentData")
  | place, .arr xs => do
    let items ← collect (canonicalizeItems code place 0 xs)
    .ok (.arr items)
  | place, .obj ms => do
    -- the members are visited in canonical order, so the first error in that order is thrown
    let sorted := Json.sortMembers (fun a b => canonicalLe a b) (canonicalizeMembers code place ms)
    let output ← collect (sorted.map fun m => m.2.map (Prod.mk m.1))
    .ok (.obj (Json.objectOf output))

def canonicalizeItems (code : CodecCode) (place : String) : Nat → List Doc →
    List (Except Err Doc)
  | _, [] => []
  | index, x :: xs =>
    canonicalizeDocumentValue code s!"{place}[{index}]" x ::
      canonicalizeItems code place (index + 1) xs

def canonicalizeMembers (code : CodecCode) (place : String) : List (JsString × Doc) →
    List (JsString × Except Err Doc)
  | [] => []
  | (key, x) :: ms =>
    (key, canonicalizeDocumentValue code (place ++ "." ++ showKey key) x) ::
      canonicalizeMembers code place ms

end

/-- `canonicalizeDocument`. -/
def canonicalizeDocument (code : CodecCode) (place : String) (value : Doc) : Except Err Doc :=
  match value with
  | .obj ms => do
    let canonical ← canonicalizeDocumentValue code place (.obj ms)
    let _ ← assertCodecDocId (canonical.member (js "_id")) s!"{place}._id" code failChunk
    .ok canonical
  | _ => .error (failChunk code s!"{place} must be a document object")

/-- `document["_id"] as string`. -/
def idOf (document : Doc) : JsString :=
  match document.member (js "_id") with
  | some (.str id) => id
  | _ => []

/-! ## Chunks -/

/-- `SnapshotChunk`; the schema version is the constant two. -/
structure SnapshotChunk where
  collection : JsString
  incarnation : JsString
  firstId : JsString
  lastId : JsString
  docs : List Doc
  deriving DecidableEq

/-- `SNAPSHOT_CHUNK_SCHEMA_VERSION` and `SNAPSHOT_MANIFEST_SCHEMA_VERSION`. -/
def schemaVersion : Doc := .num (JsNumber.ofNat 2)

/-- The object `canonicalizeChunk` returns. -/
def SnapshotChunk.toJson (chunk : SnapshotChunk) : Doc :=
  .obj [(js "schema_version", schemaVersion), (js "collection", .str chunk.collection),
    (js "incarnation", .str chunk.incarnation), (js "first_id", .str chunk.firstId),
    (js "last_id", .str chunk.lastId), (js "docs", .arr chunk.docs)]

/-- `assertCallerSegment`, for a string. -/
def assertCallerSegment (value : JsString) (role : String) (fail : CodecFail) : Except Err Unit :=
  match assertPathSegment value role with
  | .ok () => .ok ()
  | .error _ => .error (fail .invalidConfig s!"{role} is invalid")

/-- The collection is checked on its way in only, not when it is read back. -/
def assertCallerCollection (code : CodecCode) (collection : JsString) (fail : CodecFail) :
    Except Err Unit :=
  if code = .invalidConfig then assertCallerSegment collection "collection" fail else .ok ()

/-- Every id comes before the next one. -/
def strictlyIncreasing : List JsString → Bool
  | a :: b :: ids => compareDocIds a b = .lt && strictlyIncreasing (b :: ids)
  | _ => true

/-- `canonicalizeChunk`. -/
def canonicalizeChunk (value : Doc) (code : CodecCode) : Except Err SnapshotChunk := do
  let fields ← assertExactFields value [js "schema_version", js "collection", js "incarnation",
    js "first_id", js "last_id", js "docs"] "body" code failChunk
  check (fields.lookup (js "schema_version") = some schemaVersion)
    (failChunk code "unsupported schema_version")
  let collection ← asString (fields.lookup (js "collection"))
    (failChunk code "collection must be a string")
  assertCallerCollection code collection failChunk
  let incarnation ← asString (fields.lookup (js "incarnation"))
    (failChunk code "incarnation must be 32 lowercase hex characters")
  check (isIncarnation incarnation)
    (failChunk code "incarnation must be 32 lowercase hex characters")
  let rows ← asArray (fields.lookup (js "docs")) (failChunk code "docs must be an array")
  check (¬ (rows.length = 0 ∨ maxChunkRows < rows.length))
    (failChunk code s!"docs must contain 1 through {maxChunkRows} documents")
  let docs ← collect (rows.mapIdx fun index document =>
    canonicalizeDocument code s!"docs[{index}]" document)
  check (strictlyIncreasing (docs.map idOf))
    (failChunk code "document IDs must be strictly increasing")
  let firstId := idOf (docs.headD .null)
  let lastId := idOf (docs.getLastD .null)
  check (fields.lookup (js "first_id") = some (.str firstId) ∧
      fields.lookup (js "last_id") = some (.str lastId))
    (failChunk code "first_id and last_id must match the document range")
  .ok { collection, incarnation, firstId, lastId, docs }

/-- `CHUNK_OVERSIZE_MESSAGE`. -/
def chunkOversizeMessage : String := s!"canonical body exceeds {maxChunkBytes} bytes"

/-- `encodeSnapshotChunk`. -/
def encodeSnapshotChunk (N : NumberText) (chunk : Doc) : Except Err (List Byte) := do
  let canonical ← canonicalizeChunk chunk .invalidConfig
  let bytes := encodeJsonBytes N canonical.toJson
  check (bytes.length ≤ maxChunkBytes) (failChunk .invalidConfig chunkOversizeMessage)
  .ok bytes

/-- `SnapshotChunkDescriptor`. -/
structure SnapshotChunkDescriptor where
  firstId : JsString
  lastId : JsString
  key : Key
  byteLength : Nat
  rowCount : Nat
  deriving DecidableEq

/-- `decodeSnapshotChunk`; `snapshotHash` is SHA-256. -/
def decodeSnapshotChunk (N : NumberText) (snapshotHash : List Byte → JsString) (bytes : List Byte)
    (key : Key) (expectedCollection : JsString) (descriptor : SnapshotChunkDescriptor) :
    Except Err SnapshotChunk := do
  check (¬ (bytes.length = 0 ∨ maxChunkBytes < bytes.length))
    (failChunk .invalidResponse "body length is outside the chunk ceiling")
  let parsedKey ← parseArtifactKey key .chunk .invalidResponse failChunk
  check (descriptor.key = key ∧ descriptor.byteLength = bytes.length)
    (failChunk .invalidResponse "body does not match its descriptor key or byte length")
  check (snapshotHash bytes = parsedKey.digest)
    (failChunk .invalidResponse "body digest does not match its key")
  match decodeJsonBytes N bytes with
  | none => .error (failChunk .invalidResponse "body is not valid JSON")
  | some parsed => do
    let canonical ← canonicalizeChunk parsed .invalidResponse
    check (bytes = encodeJsonBytes N canonical.toJson)
      (failChunk .invalidResponse "body is not canonical JSON")
    check (canonical.collection = expectedCollection)
      (failChunk .invalidResponse "body collection does not match the expected collection")
    check (canonical.incarnation = parsedKey.incarnation)
      (failChunk .invalidResponse "body incarnation does not match its key")
    check (canonical.firstId = descriptor.firstId ∧ canonical.lastId = descriptor.lastId ∧
        canonical.docs.length = descriptor.rowCount)
      (failChunk .invalidResponse "body range or row count does not match its descriptor")
    .ok canonical

/-! ## Manifests -/

/-- `SnapshotManifest`; the schema version and the collation are constants. -/
structure SnapshotManifest where
  collection : JsString
  logSeqStart : Nat
  incarnation : JsString
  chunks : List SnapshotChunkDescriptor
  deriving DecidableEq

def SnapshotChunkDescriptor.toJson (d : SnapshotChunkDescriptor) : Doc :=
  .obj [(js "first_id", .str d.firstId), (js "last_id", .str d.lastId), (js "key", .str d.key),
    (js "byte_length", .num (JsNumber.ofNat d.byteLength)),
    (js "row_count", .num (JsNumber.ofNat d.rowCount))]

/-- The only supported collation. -/
def collation : Doc := .str (js "utf8-scalar-v1")

/-- The object `canonicalizeManifest` returns. -/
def SnapshotManifest.toJson (m : SnapshotManifest) : Doc :=
  .obj [(js "schema_version", schemaVersion), (js "collection", .str m.collection),
    (js "log_seq_start", .num (JsNumber.ofNat m.logSeqStart)),
    (js "incarnation", .str m.incarnation), (js "collation", collation),
    (js "chunks", .arr (m.chunks.map SnapshotChunkDescriptor.toJson))]

/-- `positiveSafeInteger`, with the integer. -/
def positiveSafeInteger (value : Option Doc) (maximum : Nat) (place : String) (code : CodecCode) :
    Except Err Nat := do
  let failure := failManifest code s!"{place} must be a positive safe integer at most {maximum}"
  let n ← asSafeNat value failure
  check (0 < n ∧ n ≤ maximum) failure
  .ok n

/-- One round of the descriptor loop: the descriptor and the prefix of its key. -/
def canonicalizeDescriptor (code : CodecCode) (expectedPrefix chunkPrefix : Option Key)
    (seenKeys : List Key) (index : Nat) (candidate : Doc) :
    Except Err (SnapshotChunkDescriptor × Key) := do
  let place := s!"chunks[{index}]"
  let fields ← assertExactFields candidate [js "first_id", js "last_id", js "key",
    js "byte_length", js "row_count"] place code failManifest
  let firstId ← assertCodecDocId (fields.lookup (js "first_id")) s!"{place}.first_id" code
    failManifest
  let lastId ← assertCodecDocId (fields.lookup (js "last_id")) s!"{place}.last_id" code failManifest
  check (compareDocIds firstId lastId ≠ .gt) (failManifest code s!"{place} range is reversed")
  let key ← asString (fields.lookup (js "key")) (failManifest code s!"{place}.key must be a string")
  let parsedKey ← parseArtifactKey key .chunk code failManifest
  check (chunkPrefix = none ∨ chunkPrefix = some parsedKey.collectionPrefix)
    (failManifest code "chunk descriptor keys must share one collection prefix")
  check (expectedPrefix = none ∨ expectedPrefix = some parsedKey.collectionPrefix)
    (failManifest code s!"{place}.key belongs to another collection prefix")
  let byteLength ← positiveSafeInteger (fields.lookup (js "byte_length")) maxChunkBytes
    s!"{place}.byte_length" code
  let rowCount ← positiveSafeInteger (fields.lookup (js "row_count")) maxChunkRows
    s!"{place}.row_count" code
  check (key ∉ seenKeys) (failManifest code "descriptor keys must be unique")
  .ok ({ firstId, lastId, key, byteLength, rowCount }, parsedKey.collectionPrefix)

/-- The descriptor loop. -/
def canonicalizeDescriptors (code : CodecCode) (expectedPrefix : Option Key) :
    (chunkPrefix : Option Key) → (seenKeys : List Key) → (index : Nat) → List Doc →
    Except Err (List SnapshotChunkDescriptor)
  | _, _, _, [] => .ok []
  | chunkPrefix, seenKeys, index, candidate :: candidates => do
    let (d, p) ← canonicalizeDescriptor code expectedPrefix chunkPrefix seenKeys index candidate
    let ds ← canonicalizeDescriptors code expectedPrefix (some p) (d.key :: seenKeys) (index + 1)
      candidates
    .ok (d :: ds)

/-- Every range ends before the next one begins. -/
def rangesIncrease : List SnapshotChunkDescriptor → Bool
  | a :: b :: ds =>
    compareDocIds a.firstId b.firstId = .lt && compareDocIds a.lastId b.firstId = .lt &&
      rangesIncrease (b :: ds)
  | _ => true

/-- `canonicalizeManifest`. -/
def canonicalizeManifest (value : Doc) (code : CodecCode) (expectedPrefix : Option Key) :
    Except Err SnapshotManifest := do
  let fields ← assertExactFields value [js "schema_version", js "collection", js "log_seq_start",
    js "incarnation", js "collation", js "chunks"] "body" code failManifest
  check (fields.lookup (js "schema_version") = some schemaVersion)
    (failManifest code "unsupported schema_version")
  let collection ← asString (fields.lookup (js "collection"))
    (failManifest code "collection must be a string")
  assertCallerCollection code collection failManifest
  let logSeqStart ← asSafeNat (fields.lookup (js "log_seq_start"))
    (failManifest code "log_seq_start must be a non-negative safe integer")
  let incarnation ← asString (fields.lookup (js "incarnation"))
    (failManifest code "incarnation must be 32 lowercase hex characters")
  check (isIncarnation incarnation)
    (failManifest code "incarnation must be 32 lowercase hex characters")
  check (fields.lookup (js "collation") = some collation)
    (failManifest code "unsupported collation")
  let failure := failManifest code
    s!"chunks must be an array of at most {maxManifestChunks} descriptors"
  let candidates ← asArray (fields.lookup (js "chunks")) failure
  check (candidates.length ≤ maxManifestChunks) failure
  let chunks ← canonicalizeDescriptors code expectedPrefix none [] 0 candidates
  check (rangesIncrease chunks)
    (failManifest code "descriptor ranges must be strictly increasing and non-overlapping")
  .ok { collection, logSeqStart, incarnation, chunks }

/-- `encodeSnapshotManifest`. -/
def encodeSnapshotManifest (N : NumberText) (manifest : Doc) : Except Err (List Byte) := do
  let canonical ← canonicalizeManifest manifest .invalidConfig none
  let bytes := encodeJsonBytes N canonical.toJson
  check (bytes.length ≤ maxManifestBytes)
    (failManifest .invalidConfig s!"canonical body exceeds {maxManifestBytes} bytes")
  .ok bytes

/-- `decodeSnapshotManifest`. -/
def decodeSnapshotManifest (N : NumberText) (snapshotHash : List Byte → JsString)
    (bytes : List Byte) (key : Key) (expectedCollection : JsString) (expectedLogSeqStart : Nat) :
    Except Err SnapshotManifest := do
  check (¬ (bytes.length = 0 ∨ maxManifestBytes < bytes.length))
    (failManifest .invalidResponse "body length is outside the manifest ceiling")
  let parsedKey ← parseArtifactKey key .manifest .invalidResponse failManifest
  check (snapshotHash bytes = parsedKey.digest)
    (failManifest .invalidResponse "body digest does not match its key")
  match decodeJsonBytes N bytes with
  | none => .error (failManifest .invalidResponse "body is not valid JSON")
  | some parsed => do
    let canonical ← canonicalizeManifest parsed .invalidResponse (some parsedKey.collectionPrefix)
    check (bytes = encodeJsonBytes N canonical.toJson)
      (failManifest .invalidResponse "body is not canonical JSON")
    check (canonical.collection = expectedCollection)
      (failManifest .invalidResponse "body collection does not match the expected collection")
    check (canonical.logSeqStart = expectedLogSeqStart)
      (failManifest .invalidResponse "body log_seq_start does not match the expected floor")
    check (canonical.incarnation = parsedKey.incarnation)
      (failManifest .invalidResponse "body incarnation does not match its key")
    .ok canonical

end Baerly
