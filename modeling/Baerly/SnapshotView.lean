import Baerly.ChunkedFold
import Baerly.Lib.Bisect

/-
  Reading a chunked snapshot (`server/src/snapshot-view.ts`).

  A view is opened on a manifest, and reads chunks one by one: the chunk of an id, the chunks of a
  range, or all of them.  `get` is what the storage answers for a key: the bytes, nothing, or a
  failure.  Cancellation is left out.
-/

namespace Baerly

open Json
open Utf8 (Byte)

/-- `SnapshotRow`. -/
structure SnapshotRow where
  id : JsString
  body : Doc

/-- `OpenSnapshotViewInput`. -/
structure OpenSnapshotViewInput where
  get : Key → Except Err (Option (List Byte))
  manifestKey : Option Key
  collection : JsString
  expectedLogSeqStart : Nat

/-- `missingArtifact`. -/
def missingArtifact (kind : ArtifactKind) (key : Key) : Err :=
  .mk .invalidResponse s!"snapshot view: referenced {kind.name} is missing: {showKey key}"

/-- `compareDocIds(docs[middle]._id, id) < 0`. -/
def liesBefore (docs : List Doc) (id : JsString) (middle : Nat) : Bool :=
  match docs[middle]? with
  | some candidate => compareDocIds (idOf candidate) id = .lt
  | none => false

/-- `findDocument`. -/
def findDocument (docs : List Doc) (id : JsString) : Option Doc :=
  match docs[Bisect.search (liesBefore docs id) docs.length 0 docs.length]? with
  | some candidate => if compareDocIds (idOf candidate) id = .eq then some candidate else none
  | none => none

/-- What a view closes over. -/
structure SnapshotView where
  input : OpenSnapshotViewInput
  descriptors : List SnapshotChunkDescriptor

/-- The bounds of a scan. -/
structure SnapshotRange where
  gte : Option JsString
  lt : Option JsString

/-- `undefined`. -/
def SnapshotRange.all : SnapshotRange := ⟨none, none⟩

/-- `assertSnapshotDocId` on a bound that is given. -/
def assertBound : Option JsString → Except Err Unit
  | some id => assertSnapshotDocId id
  | none => .ok ()

/-- `range.gte !== undefined && compareDocIds(id, range.gte) < 0`. -/
def SnapshotRange.startsAfter (range : SnapshotRange) (id : JsString) : Bool :=
  match range.gte with
  | some gte => compareDocIds id gte = .lt
  | none => false

/-- `range.lt !== undefined && compareDocIds(id, range.lt) >= 0`. -/
def SnapshotRange.endsAt (range : SnapshotRange) (id : JsString) : Bool :=
  match range.lt with
  | some lt => compareDocIds id lt ≠ .lt
  | none => false

/-- Both bounds are given and the range is empty. -/
def SnapshotRange.isEmpty (range : SnapshotRange) : Bool :=
  match range.gte with
  | some gte => range.endsAt gte
  | none => false

/-- The rows a scan yields, and what it throws after them. -/
structure Scan where
  rows : List SnapshotRow
  thrown : Option Err

/-- The loop over the documents of a chunk: `continue` below the range, `break` above it. -/
def scanDocs (range : SnapshotRange) : List Doc → List SnapshotRow
  | [] => []
  | body :: docs =>
    if range.startsAfter (idOf body) then scanDocs range docs
    else if range.endsAt (idOf body) then []
    else ⟨idOf body, body⟩ :: scanDocs range docs

section View

variable (N : NumberText) (snapshotHash : List Byte → JsString)

/-- `openSnapshotView`. -/
def openSnapshotView (input : OpenSnapshotViewInput) : Except Err SnapshotView :=
  match input.manifestKey with
  | none => .ok ⟨input, []⟩
  | some key => do
    match ← input.get key with
    | none => .error (missingArtifact .manifest key)
    | some bytes => do
      let manifest ← decodeSnapshotManifest N snapshotHash bytes key input.collection
        input.expectedLogSeqStart
      .ok ⟨input, manifest.chunks⟩

namespace SnapshotView

variable (view : SnapshotView)

/-- `loadChunk`. -/
def loadChunk (descriptor : SnapshotChunkDescriptor) : Except Err (List Doc) := do
  match ← view.input.get descriptor.key with
  | none => .error (missingArtifact .chunk descriptor.key)
  | some bytes => do
    let chunk ← decodeSnapshotChunk N snapshotHash bytes descriptor.key view.input.collection
      descriptor
    .ok chunk.docs

/-- `view.get`. -/
def get (docId : JsString) : Except Err (Option Doc) := do
  assertSnapshotDocId docId
  match view.descriptors[firstDescriptorEndingAtOrAfter view.descriptors docId]? with
  | none => .ok none
  | some descriptor =>
    if compareDocIds descriptor.firstId docId = .gt then .ok none
    else do
      let docs ← view.loadChunk N snapshotHash descriptor
      .ok (findDocument docs docId)

/-- The loop over the chunks. -/
def scanChunks (range : SnapshotRange) : List SnapshotChunkDescriptor → Scan
  | [] => ⟨[], none⟩
  | descriptor :: descriptors =>
    if range.endsAt descriptor.firstId then ⟨[], none⟩
    else
      match view.loadChunk N snapshotHash descriptor with
      | .error e => ⟨[], some e⟩
      | .ok docs =>
        let rest := scanChunks range descriptors
        ⟨scanDocs range docs ++ rest.rows, rest.thrown⟩

/-- The first chunk a scan looks at. -/
def scanStart (range : SnapshotRange) : Nat :=
  match range.gte with
  | some gte => firstDescriptorEndingAtOrAfter view.descriptors gte
  | none => 0

/-- `view.scan`. -/
def scan (range : SnapshotRange) : Scan :=
  match assertBound range.gte, assertBound range.lt with
  | .error e, _ => ⟨[], some e⟩
  | .ok (), .error e => ⟨[], some e⟩
  | .ok (), .ok () =>
    if range.isEmpty then ⟨[], none⟩
    else view.scanChunks N snapshotHash range (view.descriptors.drop (view.scanStart range))

/-- `view.materialize`. -/
def materialize : Except Err Rows :=
  let all := view.scan N snapshotHash .all
  match all.thrown with
  | some e => .error e
  | none => .ok (all.rows.foldl (fun documents row => documents.set row.id row.body) InsMap.empty)

end SnapshotView

end View

end Baerly
