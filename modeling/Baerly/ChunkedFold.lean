import Baerly.SnapshotCodec
import Mathlib.Data.Finset.Sort
import Mathlib.Data.Finset.Option
import Mathlib.Algebra.BigOperators.Group.Finset.Basic

/-
  Folding log entries into a chunked snapshot: `server/src/chunked-snapshot-reference.ts`,
  `server/src/snapshot-chunk-builder.ts` and `server/src/chunked-fold-planner.ts`.

  PROGRAM: the reference folds rows and mutations through one map and sorts the result.  The builder
  routes each mutation to the chunk that owns its id, rewrites the chunks that change, splits the
  ones that grew, and may merge an underfull one with a neighbour.  The planner walks the log,
  bounds what a fold may touch, and admits the longest run of entries the builder accepts within
  the budget.

  Row and byte targets are naturals.  A split with a target of no rows makes no progress and never
  returns (`Stop.hangs`).
-/

namespace Baerly

open Utf8 (Byte)

/-! ## The reference -/

/-- `ReferenceMutation`. -/
inductive ReferenceMutation where
  | insert (docId : JsString) (after : Doc)
  | update (docId : JsString) (after : Doc)
  | delete (docId : JsString)
  deriving DecidableEq

namespace ReferenceMutation

/-- `mutation.doc_id`. -/
def docId : ReferenceMutation → JsString
  | .insert docId _ => docId
  | .update docId _ => docId
  | .delete docId => docId

/-- The post-image, which a delete has none of. -/
def after? : ReferenceMutation → Option Doc
  | .insert _ after => some after
  | .update _ after => some after
  | .delete _ => none

end ReferenceMutation

/-- `failReference`. -/
def failReference : CodecFail := makeCodecFail "chunked snapshot reference"

mutual

/-- `assertDocumentValue`. -/
def assertDocumentValue : (place : String) → Doc → Except Err Unit
  | _, .bool _ => .ok ()
  | _, .num _ => .ok ()
  | _, .str _ => .ok ()
  | place, .null =>
    .error (failReference .invalidResponse s!"{place} contains a value outside DocumentData")
  | place, .arr xs => assertDocumentItems place 0 xs
  | place, .obj ms => assertDocumentMembers place ms

def assertDocumentItems (place : String) : Nat → List Doc → Except Err Unit
  | _, [] => .ok ()
  | index, x :: xs => do
    assertDocumentValue s!"{place}[{index}]" x
    assertDocumentItems place (index + 1) xs

def assertDocumentMembers (place : String) : List (JsString × Doc) → Except Err Unit
  | [] => .ok ()
  | (key, x) :: ms => do
    assertDocumentValue (place ++ "." ++ showKey key) x
    assertDocumentMembers place ms

end

/-- `assertDocument`. -/
def assertDocument (value : Doc) (id : JsString) (place : String) : Except Err Unit :=
  match value with
  | .obj ms => do
    assertDocumentValue place (.obj ms)
    let storedId ← assertCodecDocId (ms.lookup (js "_id")) s!"{place}._id" .invalidResponse
      failReference
    check (storedId = id) (failReference .invalidResponse (place ++ "._id must equal " ++
      if place = "row.body" then "row._id" else "mutation.doc_id"))
  | _ => .error (failReference .invalidResponse s!"{place} must be a document object")

/-- The rows loop. -/
def referenceRows : (documents : Rows) → List (JsString × Doc) → Except Err Rows
  | documents, [] => .ok documents
  | documents, (id, body) :: rows => do
    let _ ← assertCodecDocId (some (.str id)) "row._id" .invalidResponse failReference
    assertDocument body id "row.body"
    check (documents.has id = false)
      (failReference .invalidResponse "rows contain a duplicate _id")
    referenceRows (documents.set id body) rows

/-- What a mutation does to a map of documents. -/
def applyMutation (documents : Rows) (mutation : ReferenceMutation) : Rows :=
  match mutation.after? with
  | none => documents.erase mutation.docId
  | some after => documents.set mutation.docId after

/-- The post-image of a mutation is a document under its id. -/
def assertAfter (mutation : ReferenceMutation) : Except Err Unit :=
  match mutation.after? with
  | none => .ok ()
  | some after => assertDocument after mutation.docId "mutation.after"

/-- The mutations loop. -/
def referenceMutations : (documents : Rows) → List ReferenceMutation → Except Err Rows
  | documents, [] => .ok documents
  | documents, mutation :: mutations => do
    let _ ← assertCodecDocId (some (.str mutation.docId)) "mutation.doc_id" .invalidResponse
      failReference
    assertAfter mutation
    referenceMutations (applyMutation documents mutation) mutations

/-- `foldChunkedSnapshotReference`. -/
def foldChunkedSnapshotReference (rows : List (JsString × Doc))
    (mutations : List ReferenceMutation) : Except Err (List (JsString × Doc)) := do
  let documents ← referenceRows InsMap.empty rows
  let documents ← referenceMutations documents mutations
  .ok (documents.entries.insertionSort fun a b => compareDocIds a.1 b.1 ≠ .gt)

/-! ## Routing -/

/-- `compareDocIds(descriptors[middle].last_id, id) < 0`. -/
def endsBefore (descriptors : List SnapshotChunkDescriptor) (id : JsString) (middle : Nat) : Bool :=
  match descriptors[middle]? with
  | some d => compareDocIds d.lastId id = .lt
  | none => false

/-- The bisection loop; the interval halves, so its length is fuel enough. -/
def bisectDescriptors (descriptors : List SnapshotChunkDescriptor) (id : JsString) :
    (fuel low high : Nat) → Nat
  | 0, low, _ => low
  | fuel + 1, low, high =>
    if low < high then
      let middle := low + (high - low) / 2
      if endsBefore descriptors id middle then bisectDescriptors descriptors id fuel (middle + 1) high
      else bisectDescriptors descriptors id fuel low middle
    else low

/-- `firstDescriptorEndingAtOrAfter`. -/
def firstDescriptorEndingAtOrAfter (descriptors : List SnapshotChunkDescriptor) (id : JsString) :
    Nat :=
  bisectDescriptors descriptors id descriptors.length 0 descriptors.length

/-- `routeMutationToDescriptor`. -/
def routeMutationToDescriptor (docId : JsString) (isDelete : Bool)
    (descriptors : List SnapshotChunkDescriptor) : Option Nat :=
  if descriptors = [] then none
  else
    let low := firstDescriptorEndingAtOrAfter descriptors docId
    match descriptors[low]? with
    | some d =>
      if compareDocIds d.firstId docId ≠ .gt then some low
      else if isDelete then none
      else if low = 0 then some 0
      else some (low - 1)
    | none => if isDelete then none else some (descriptors.length - 1)

/-- Where a mutation goes. -/
def ReferenceMutation.route (m : ReferenceMutation) (descriptors : List SnapshotChunkDescriptor) :
    Option Nat :=
  routeMutationToDescriptor m.docId m.after?.isNone descriptors

/-- `deriveOwnerAndNeighbor`. -/
def deriveOwnerAndNeighbor (directIndexes : Finset Nat) (descriptorCount : Nat) :
    Option Nat × Option Nat :=
  if descriptorCount = 0 then (none, none)
  else
    match (directIndexes.sort (· ≤ ·)).head? with
    | none => (none, none)
    | some leftmost =>
      if leftmost + 1 < descriptorCount then (some leftmost, some (leftmost + 1))
      else if 1 ≤ leftmost then (some leftmost, some (leftmost - 1))
      else (some leftmost, none)

/-! ## The builder -/

/-- Why an asynchronous call gives no value: it throws, or it never ends. -/
inductive Stop where
  | thrown (error : Err)
  | hangs

/-- A call that can only throw. -/
def throws {α : Type} : Except Err α → Except Stop α
  | .ok a => .ok a
  | .error e => .error (.thrown e)

/-- `SnapshotChunkBoundaryPolicy`. -/
structure SnapshotChunkBoundaryPolicy where
  targetChunkBytes : Nat
  targetRows : Nat

/-- `failBuilder`. -/
def failBuilder : CodecFail := makeCodecFail "snapshot chunk builder"

/-- `isChunkOversizeError`. -/
def isChunkOversizeError : Err → Bool
  | .baerly _ message _ _ => message.endsWith chunkOversizeMessage
  | _ => false

/-- The chunk a run of documents makes. -/
def builderChunk (collection incarnation : JsString) (docs : List Doc) : SnapshotChunk where
  collection := collection
  incarnation := incarnation
  firstId := idOf (docs.headD .null)
  lastId := idOf (docs.getLastD .null)
  docs := docs

/-- `encodeBuilderChunk`. -/
def encodeBuilderChunk (N : NumberText) (chunk : SnapshotChunk) : Except Err (List Byte) :=
  match encodeSnapshotChunk N chunk.toJson with
  | .ok bytes => .ok bytes
  | .error e =>
    if isChunkOversizeError e then .error (failBuilder .invalidResponse e.message) else .error e

/-- `isUnderfull`. -/
def isUnderfull (byteLength rowCount : Nat) (policy : SnapshotChunkBoundaryPolicy) : Bool :=
  2 * byteLength < policy.targetChunkBytes && 2 * rowCount < policy.targetRows

/-- `SplitChunkItem`. -/
structure SplitChunkItem where
  docs : List Doc
  bytes : List Byte

/-- The inner loop of the splitter, with `rows` documents to try: shrink until the chunk fits.
    `none` when there is nothing to try. -/
def splitCandidate (N : NumberText) (collection incarnation : JsString)
    (policy : SnapshotChunkBoundaryPolicy) (rest : List Doc) :
    (rows : Nat) → Except Err (Option SplitChunkItem)
  | 0 => .ok none
  | rows + 1 =>
    match encodeBuilderChunk N (builderChunk collection incarnation (rest.take (rows + 1))) with
    | .error e =>
      if !isChunkOversizeError e || rows = 0 then .error e
      else splitCandidate N collection incarnation policy rest rows
    | .ok bytes =>
      if bytes.length ≤ policy.targetChunkBytes || rows = 0 then
        .ok (some ⟨rest.take (rows + 1), bytes⟩)
      else splitCandidate N collection incarnation policy rest rows

/-- The outer loop of the splitter: every round takes a document off. -/
def splitFrom (N : NumberText) (collection incarnation : JsString)
    (policy : SnapshotChunkBoundaryPolicy) : (fuel : Nat) → List Doc →
    Except Stop (List SplitChunkItem)
  | _, [] => .ok []
  | 0, _ :: _ => .error .hangs
  | fuel + 1, docs => do
    let found ← throws (splitCandidate N collection incarnation policy docs
      (min policy.targetRows docs.length))
    match found with
    | none => .error .hangs
    | some item => do
      let items ← splitFrom N collection incarnation policy fuel (docs.drop item.docs.length)
      .ok (item :: items)

/-- `splitGroupDocsGreedily`. -/
def splitGroupDocsGreedily (N : NumberText) (docs : List Doc) (collection incarnation : JsString)
    (policy : SnapshotChunkBoundaryPolicy) : Except Stop (List SplitChunkItem) :=
  splitFrom N collection incarnation policy docs.length docs

/-- `BuildSnapshotChunksInput`; `loadedChunks` is a map. -/
structure BuildSnapshotChunksInput where
  collection : JsString
  collectionPrefix : Key
  descriptors : List SnapshotChunkDescriptor
  loadedChunks : Key → Option (List Doc)
  mutations : InsMap JsString ReferenceMutation
  incarnation : JsString
  policy : SnapshotChunkBoundaryPolicy
  lockedDirectOwnerIndex : Option Nat
  selectedNeighborIndex : Option Nat

/-- `getLoadedDocs`. -/
def getLoadedDocs (loadedChunks : Key → Option (List Doc)) (d : SnapshotChunkDescriptor) :
    Except Err (List Doc) :=
  match loadedChunks d.key with
  | some docs => .ok docs
  | none => .error (failBuilder .invalidResponse
      ("missing loaded chunk for descriptor " ++ showKey d.key))

/-- `areDocListsEqual`. -/
def areDocListsEqual (N : NumberText) (left right : List Doc) : Bool :=
  left.map (encodeJsonBytes N) = right.map (encodeJsonBytes N)

/-- The documents of a map, sorted by id. -/
def sortedDocuments (docMap : Rows) : List Doc :=
  (docMap.entries.map Prod.snd).insertionSort fun a b => compareDocIds (idOf a) (idOf b) ≠ .gt

/-- The documents of a group once its mutations are applied. -/
def updatedDocs (initialDocs : List Doc) (mutations : List ReferenceMutation) : List Doc :=
  sortedDocuments (mutations.foldl applyMutation
    (initialDocs.foldl (fun docMap d => docMap.set (idOf d) d) InsMap.empty))

/-- What became of a touched group: nothing, or new chunks. -/
inductive GroupResult where
  | unchanged
  | rewritten (items : List SplitChunkItem)

/-- The mutations of a map, in its order. -/
def mutationList (mutations : InsMap JsString ReferenceMutation) : List ReferenceMutation :=
  mutations.entries.map Prod.snd

/-- One round of the loop over touched groups. -/
def evaluateGroup (N : NumberText) (input : BuildSnapshotChunksInput) (index : Nat) :
    Except Stop GroupResult :=
  match input.descriptors[index]? with
  | none => .error (.thrown (.other "Cannot read properties of undefined"))
  | some d => do
    let initialDocs ← throws (getLoadedDocs input.loadedChunks d)
    let group := (mutationList input.mutations).filter fun m => m.route input.descriptors = some index
    let updated := updatedDocs initialDocs group
    if areDocListsEqual N initialDocs updated then .ok .unchanged
    else if updated = [] then .ok (.rewritten [])
    else do
      let items ← splitGroupDocsGreedily N updated input.collection input.incarnation input.policy
      .ok (.rewritten items)

/-- The loop over touched groups, in the order they were first touched. -/
def evaluateGroups (N : NumberText) (input : BuildSnapshotChunksInput) :
    List Nat → Except Stop (List (Nat × GroupResult))
  | [] => .ok []
  | index :: indexes => do
    let result ← evaluateGroup N input index
    let results ← evaluateGroups N input indexes
    .ok ((index, result) :: results)

/-- Which output faces the neighbour. -/
inductive Facing where
  | right | left

/-- The owner's facing side: its right neighbour, or its left one when it has no right one. -/
def facingSide (owner neighbor count : Nat) : Option Facing :=
  if neighbor = owner + 1 then some .right
  else if neighbor + 1 = owner ∧ owner + 1 = count then some .left
  else none

/-- The output on a side. -/
def facingOutput : Facing → List SplitChunkItem → Option SplitChunkItem
  | .right, items => items.getLast?
  | .left, items => items.head?

/-- The facing documents and the neighbour's, in order. -/
def combineDocs : Facing → (facing neighbor : List Doc) → List Doc
  | .right, facing, neighbor => facing ++ neighbor
  | .left, facing, neighbor => neighbor ++ facing

/-- The outputs with the facing one replaced. -/
def replaceFacing : Facing → List SplitChunkItem → SplitChunkItem → List SplitChunkItem
  | .right, items, merged => items.dropLast ++ [merged]
  | .left, items, merged => merged :: items.tail

/-- `applyFacingMerge`, once the owner has been rewritten into `items`: these with the neighbour's
    documents in them, or `none` where the pair is not eligible. -/
def applyFacingMerge (N : NumberText) (input : BuildSnapshotChunksInput) (owner neighbor : Nat)
    (touched : List Nat) (items : List SplitChunkItem) :
    Except Err (Option (List SplitChunkItem)) :=
  if input.descriptors.length ≤ owner ∨ neighbor ∈ touched then .ok none
  else
    match input.descriptors[neighbor]?, facingSide owner neighbor input.descriptors.length with
    | some d, some side =>
      match facingOutput side items with
      | none => .ok none
      | some facing =>
        if !isUnderfull facing.bytes.length facing.docs.length input.policy then .ok none
        else do
          let neighborDocs ← getLoadedDocs input.loadedChunks d
          let combined := combineDocs side facing.docs neighborDocs
          let bytes ← encodeBuilderChunk N (builderChunk input.collection input.incarnation combined)
          if input.policy.targetChunkBytes < bytes.length ∨
              input.policy.targetRows < combined.length then .ok none
          else .ok (some (replaceFacing side items ⟨combined, bytes⟩))
    | _, _ => .ok none

/-- What stands in the place of a descriptor: itself, or a new chunk. -/
inductive ChunkOutput where
  | kept (d : SnapshotChunkDescriptor)
  | rewritten (item : SplitChunkItem)

/-- `SnapshotChunkEvaluation`: the outputs are what `mint` goes through. -/
structure SnapshotChunkEvaluation where
  splitIncrements : Nat
  usedNeighborChunkIndex : Option Nat
  outputs : List ChunkOutput

/-- What the loop of `mint` makes of the descriptor at `index`. -/
def outputsAt (usedNeighbor : Option Nat) (results : List (Nat × GroupResult)) (index : Nat)
    (d : SnapshotChunkDescriptor) : List ChunkOutput :=
  if usedNeighbor = some index then []
  else
    match results.lookup index with
    | some (.rewritten items) => items.map .rewritten
    | _ => [.kept d]

/-- The split increments of a touched group. -/
def GroupResult.splitIncrements : GroupResult → Nat
  | .unchanged => 0
  | .rewritten items => items.length - 1

/-- The outputs of a group after the facing merge. -/
def mergeResults (results : List (Nat × GroupResult)) (owner : Nat) (items : List SplitChunkItem) :
    List (Nat × GroupResult) :=
  results.map fun r => if r.1 = owner then (owner, .rewritten items) else r

/-- The facing merge of an evaluation: the consumed neighbour and the results after it. -/
def evaluateMerge (N : NumberText) (input : BuildSnapshotChunksInput) (touched : List Nat)
    (results : List (Nat × GroupResult)) :
    Except Err (Option Nat × List (Nat × GroupResult)) :=
  match input.lockedDirectOwnerIndex, input.selectedNeighborIndex with
  | some owner, some neighbor =>
    match results.lookup owner with
    | some (.rewritten items) => do
      match ← applyFacingMerge N input owner neighbor touched items with
      | some merged => .ok (some neighbor, mergeResults results owner merged)
      | none => .ok (none, results)
    | _ => .ok (none, results)
  | _, _ => .ok (none, results)

/-- `evaluateInitialEmptyChunks`. -/
def evaluateInitialEmptyChunks (N : NumberText) (input : BuildSnapshotChunksInput) :
    Except Stop SnapshotChunkEvaluation := do
  let updated := updatedDocs [] (mutationList input.mutations)
  if updated = [] then .ok ⟨0, none, []⟩
  else do
    let items ← splitGroupDocsGreedily N updated input.collection input.incarnation input.policy
    .ok ⟨items.length - 1, none, items.map .rewritten⟩

/-- `assertPostImageIdentity` for a document, with the failures of the caller. -/
def assertPostImage (docId : JsString) (after : Doc) (code : CodecCode) (fail : CodecFail) :
    Except Err Unit :=
  match after with
  | .obj ms =>
    match ms.lookup (js "_id") with
    | none => .error (fail code "after._id must be an own enumerable data property")
    | some v => check (v = .str docId) (fail code "after._id must equal doc_id")
  | _ => .error (fail code "after must be a document object")

/-- One round of the ingress checks. -/
def assertIngress (docId : JsString) (mutation : ReferenceMutation) : Except Err Unit := do
  assertSnapshotDocId docId
  check (docId = mutation.docId)
    (failBuilder .invalidConfig "mutation doc_id must match its map key")
  match mutation.after? with
  | none => .ok ()
  | some after => assertPostImage docId after .invalidConfig failBuilder

/-- The ingress checks. -/
def assertMutations : List (JsString × ReferenceMutation) → Except Err Unit
  | [] => .ok ()
  | (docId, mutation) :: mutations => do
    assertIngress docId mutation
    assertMutations mutations

/-- `evaluateSnapshotChunks`. -/
def evaluateSnapshotChunks (N : NumberText) (input : BuildSnapshotChunksInput) :
    Except Stop SnapshotChunkEvaluation := do
  throws (check (input.collection ≠ [])
    (failBuilder .invalidConfig "collection must be non-empty"))
  throws (check (¬ (input.collectionPrefix = [] ∨ input.collectionPrefix.getLast? = some slash))
    (failBuilder .invalidConfig "collectionPrefix must be non-empty without a trailing slash"))
  throws (check (isIncarnation input.incarnation)
    (failBuilder .invalidConfig "incarnation must be 32 lowercase hex characters"))
  throws (assertMutations input.mutations.entries)
  if input.descriptors = [] then evaluateInitialEmptyChunks N input
  else do
    let touched := ((mutationList input.mutations).filterMap fun m =>
      m.route input.descriptors).eraseDups
    let results ← evaluateGroups N input touched
    let merged ← throws (evaluateMerge N input touched results)
    .ok { splitIncrements := (results.map fun r => r.2.splitIncrements).sum
          usedNeighborChunkIndex := merged.1
          outputs := (input.descriptors.mapIdx (outputsAt merged.1 merged.2)).flatten }

/-- `EncodedChunkOutput`. -/
structure EncodedChunkOutput where
  descriptor : SnapshotChunkDescriptor
  bytes : List Byte

/-- `SnapshotChunkBuildResult`. -/
structure SnapshotChunkBuildResult where
  chunks : List SnapshotChunkDescriptor
  changedChunks : List EncodedChunkOutput
  splitIncrements : Nat
  usedNeighborChunkIndex : Option Nat

/-- `appendChunkOutput`. -/
def chunkOutput (snapshotHash : List Byte → JsString) (collectionPrefix incarnation : JsString)
    (item : SplitChunkItem) : Except Err EncodedChunkOutput := do
  let key ← snapshotChunkKey collectionPrefix incarnation (snapshotHash item.bytes)
  .ok { descriptor :=
          { firstId := idOf (item.docs.headD .null)
            lastId := idOf (item.docs.getLastD .null)
            key := key
            byteLength := item.bytes.length
            rowCount := item.docs.length }
        bytes := item.bytes }

/-- The loop of `mint`. -/
def mintOutputs (snapshotHash : List Byte → JsString) (collectionPrefix incarnation : JsString) :
    List ChunkOutput → Except Err (List SnapshotChunkDescriptor × List EncodedChunkOutput)
  | [] => .ok ([], [])
  | .kept d :: outputs => do
    let (chunks, changed) ← mintOutputs snapshotHash collectionPrefix incarnation outputs
    .ok (d :: chunks, changed)
  | .rewritten item :: outputs => do
    let output ← chunkOutput snapshotHash collectionPrefix incarnation item
    let (chunks, changed) ← mintOutputs snapshotHash collectionPrefix incarnation outputs
    .ok (output.descriptor :: chunks, output :: changed)

/-- `mint`. -/
def SnapshotChunkEvaluation.mint (snapshotHash : List Byte → JsString)
    (collectionPrefix incarnation : JsString) (evaluation : SnapshotChunkEvaluation) :
    Except Err SnapshotChunkBuildResult := do
  let (chunks, changedChunks) ←
    mintOutputs snapshotHash collectionPrefix incarnation evaluation.outputs
  .ok { chunks, changedChunks, splitIncrements := evaluation.splitIncrements,
        usedNeighborChunkIndex := evaluation.usedNeighborChunkIndex }

/-! ## The planner -/

/-- `failPlanner`. -/
def failPlanner : CodecFail := makeCodecFail "chunked fold planner"

/-- `assertStoredEntryDocId`. -/
def assertStoredEntryDocId (id : JsString) : Except Err Unit :=
  match assertSnapshotDocId id with
  | .ok () => .ok ()
  | .error _ =>
    .error (failPlanner .invalidResponse "stored log entry doc_id is not scalar-orderable")

/-- `entryToMutation`. -/
def entryToMutation (entry : LogEntry) : Except Err ReferenceMutation := do
  assertStoredEntryDocId entry.docId
  match entry.op, entry.after with
  | .D, _ => .ok (.delete entry.docId)
  | _, none =>
    .error (failPlanner .invalidResponse "insert or update log entry missing after post-image")
  | .I, some after => do
    assertPostImage entry.docId after .invalidResponse failPlanner
    .ok (.insert entry.docId after)
  | .U, some after => do
    assertPostImage entry.docId after .invalidResponse failPlanner
    .ok (.update entry.docId after)

/-- `ChunkedFoldBudget`. -/
structure ChunkedFoldBudget where
  maxLogEntries : Nat
  maxMutationBytes : Nat
  maxTouchedChunks : Nat
  maxTouchedBytes : Nat
  maxSplitIncrements : Nat
  maxNeighborChunks : Nat

/-- `computeMutationContribution`. -/
def computeMutationContribution (N : NumberText) (mutation : ReferenceMutation)
    (descriptors : List SnapshotChunkDescriptor) : Nat :=
  match mutation.after? with
  | none =>
    -- a delete that lands in a gap does nothing, and costs nothing
    if (mutation.route descriptors).isSome then utf8Length mutation.docId else 0
  | some after => (encodeJsonBytes N after).length

/-- The descriptors a map of mutations touches. -/
def directIndexes (descriptors : List SnapshotChunkDescriptor)
    (mutations : InsMap JsString ReferenceMutation) : Finset Nat :=
  ((mutationList mutations).filterMap fun m => m.route descriptors).toFinset

/-- `descriptors[index].byte_length`, added up. -/
def touchedBytes (descriptors : List SnapshotChunkDescriptor) (indexes : Finset Nat) : Nat :=
  indexes.sum fun index => (descriptors[index]?.map (·.byteLength)).getD 0

/-- The variables of the prefetch walk. -/
structure PrefetchState where
  candidateLogSeqEnds : List Nat
  allDirectIndexes : Finset Nat
  /-- The owner and its neighbour, once there is an owner. -/
  locked : Option (Nat × Option Nat)
  runningMutations : InsMap JsString ReferenceMutation
  runningMutationBytes : Int

def PrefetchState.start : PrefetchState where
  candidateLogSeqEnds := []
  allDirectIndexes := ∅
  locked := none
  runningMutations := InsMap.empty
  runningMutationBytes := 0

/-- `lockedNeighbor`. -/
def PrefetchState.neighbor (st : PrefetchState) : Option Nat := st.locked.bind Prod.snd

/-- The lock after an entry: `none` when the pair would change. -/
def lockPair (locked : Option (Nat × Option Nat)) (pair : Option Nat × Option Nat) :
    Option (Option (Nat × Option Nat)) :=
  match locked with
  | none => some (pair.1.map fun owner => (owner, pair.2))
  | some (owner, neighbor) =>
    if pair = (some owner, neighbor) then some locked else none

/-- One round of the prefetch walk: the variables after it, and whether it goes on. -/
def prefetchStep (N : NumberText) (descriptors : List SnapshotChunkDescriptor)
    (budget : ChunkedFoldBudget) (st : PrefetchState) (entry : LogEntry) :
    Except Err (PrefetchState × Bool) := do
  let mutation ← entryToMutation entry
  let previous := match st.runningMutations.get entry.docId with
    | some m => computeMutationContribution N m descriptors
    | none => 0
  let bytes := st.runningMutationBytes - previous + computeMutationContribution N mutation descriptors
  let running := st.runningMutations.set entry.docId mutation
  let st := { st with runningMutations := running, runningMutationBytes := bytes }
  if (budget.maxMutationBytes : Int) < bytes then .ok (st, false)
  else
    let current := directIndexes descriptors running
    match lockPair st.locked (deriveOwnerAndNeighbor current descriptors.length) with
    | none => .ok (st, false)
    | some locked =>
      let st := { st with locked := locked }
      let cumulative := st.allDirectIndexes ∪ current
      if budget.maxTouchedChunks < cumulative.card then .ok (st, false)
      else if budget.maxTouchedBytes < touchedBytes descriptors (cumulative ∪ st.neighbor.toFinset) then
        .ok (st, false)
      else .ok ({ st with candidateLogSeqEnds := st.candidateLogSeqEnds ++ [entry.seq]
                          allDirectIndexes := cumulative }, true)

/-- The prefetch walk. -/
def prefetchWalk (N : NumberText) (descriptors : List SnapshotChunkDescriptor)
    (budget : ChunkedFoldBudget) : (index : Nat) → PrefetchState → List LogEntry →
    Except Err PrefetchState
  | _, st, [] => .ok st
  | index, st, entry :: entries =>
    if budget.maxLogEntries < index + 1 then .ok st
    else do
      match ← prefetchStep N descriptors budget st entry with
      | (st, true) => prefetchWalk N descriptors budget (index + 1) st entries
      | (st, false) => .ok st

/-- `ChunkedFoldPrefetch`. -/
structure ChunkedFoldPrefetch where
  candidateLogSeqEnds : List Nat
  directlyTouchedChunkIndexes : List Nat
  chunkIndexes : List Nat
  touchedBytes : Nat
  leftmostDirectOwnerIndex : Option Nat
  selectedNeighborIndex : Option Nat

/-- `prefetchChunkedFold`. -/
def prefetchChunkedFold (N : NumberText) (entries : List LogEntry)
    (descriptors : List SnapshotChunkDescriptor) (budget : ChunkedFoldBudget) :
    Except Err ChunkedFoldPrefetch := do
  let st ← prefetchWalk N descriptors budget 0 .start entries
  let chunks := st.allDirectIndexes ∪ st.neighbor.toFinset
  .ok { candidateLogSeqEnds := st.candidateLogSeqEnds
        directlyTouchedChunkIndexes := st.allDirectIndexes.sort (· ≤ ·)
        chunkIndexes := chunks.sort (· ≤ ·)
        touchedBytes := touchedBytes descriptors chunks
        leftmostDirectOwnerIndex := st.locked.map Prod.fst
        selectedNeighborIndex := st.neighbor }

/-- `PlanChunkedFoldInput`. -/
structure PlanChunkedFoldInput where
  collection : JsString
  collectionPrefix : Key
  entries : List LogEntry
  descriptors : List SnapshotChunkDescriptor
  loadedChunks : Key → Option (List Doc)
  budget : ChunkedFoldBudget
  incarnation : JsString
  policy : SnapshotChunkBoundaryPolicy
  baseLogSeq : Option Nat

/-- `ChunkedFoldPlan`. -/
structure ChunkedFoldPlan where
  logSeqEnd : Nat
  prefetch : ChunkedFoldPrefetch
  touchedChunkIndexes : List Nat
  touchedRanges : List (JsString × JsString)
  mutationBytes : Nat
  mutations : InsMap JsString ReferenceMutation
  build : SnapshotChunkBuildResult

/-- `lastAdmitted`. -/
structure AdmittedFold where
  logSeqEnd : Nat
  mutations : InsMap JsString ReferenceMutation
  evaluation : SnapshotChunkEvaluation

/-- The final mutation of every id. -/
def collapseMutations : (mutations : InsMap JsString ReferenceMutation) → List LogEntry →
    Except Err (InsMap JsString ReferenceMutation)
  | mutations, [] => .ok mutations
  | mutations, entry :: entries => do
    let mutation ← entryToMutation entry
    collapseMutations (mutations.set entry.docId mutation) entries

/-- What the builder is called with. -/
def buildInput (input : PlanChunkedFoldInput) (prefetch : ChunkedFoldPrefetch)
    (mutations : InsMap JsString ReferenceMutation) : BuildSnapshotChunksInput where
  collection := input.collection
  collectionPrefix := input.collectionPrefix
  descriptors := input.descriptors
  loadedChunks := input.loadedChunks
  mutations := mutations
  incarnation := input.incarnation
  policy := input.policy
  lockedDirectOwnerIndex := prefetch.leftmostDirectOwnerIndex
  selectedNeighborIndex := prefetch.selectedNeighborIndex

/-- The endpoint loop: dry-run the candidates in order, keep the last one within budget. -/
def admitFrom (N : NumberText) (input : PlanChunkedFoldInput) (prefetch : ChunkedFoldPrefetch) :
    (index : Nat) → Option AdmittedFold → List Nat → Except Stop (Option AdmittedFold)
  | _, lastAdmitted, [] => .ok lastAdmitted
  | index, lastAdmitted, endpointSeq :: endpoints => do
    let mutations ← throws (collapseMutations InsMap.empty (input.entries.take (index + 1)))
    let evaluation ← evaluateSnapshotChunks N (buildInput input prefetch mutations)
    let neighborUsedCount := if evaluation.usedNeighborChunkIndex = none then 0 else 1
    if input.budget.maxSplitIncrements < evaluation.splitIncrements ∨
        input.budget.maxNeighborChunks < neighborUsedCount then .ok lastAdmitted
    else admitFrom N input prefetch (index + 1) (some ⟨endpointSeq, mutations, evaluation⟩) endpoints

/-- The plan of a fold with nothing to fold. -/
def emptyPlan (input : PlanChunkedFoldInput) (prefetch : ChunkedFoldPrefetch) : ChunkedFoldPlan where
  logSeqEnd := input.baseLogSeq.getD 0
  prefetch := prefetch
  touchedChunkIndexes := []
  touchedRanges := []
  mutationBytes := 0
  mutations := InsMap.empty
  build := ⟨input.descriptors, [], 0, none⟩

/-- The plan of an admitted fold. -/
def admittedPlan (N : NumberText) (snapshotHash : List Byte → JsString)
    (input : PlanChunkedFoldInput) (prefetch : ChunkedFoldPrefetch) (admitted : AdmittedFold) :
    Except Err ChunkedFoldPlan := do
  let build ← admitted.evaluation.mint snapshotHash input.collectionPrefix input.incarnation
  let touched := (directIndexes input.descriptors admitted.mutations).sort (· ≤ ·)
  .ok { logSeqEnd := admitted.logSeqEnd
        prefetch := prefetch
        touchedChunkIndexes := touched
        touchedRanges := touched.filterMap fun index =>
          input.descriptors[index]?.map fun d => (d.firstId, d.lastId)
        mutationBytes := ((mutationList admitted.mutations).map fun m =>
          computeMutationContribution N m input.descriptors).sum
        mutations := admitted.mutations
        build := build }

/-- `planChunkedFold`. -/
def planChunkedFold (N : NumberText) (snapshotHash : List Byte → JsString)
    (input : PlanChunkedFoldInput) : Except Stop (Option ChunkedFoldPlan) := do
  let prefetch ← throws (prefetchChunkedFold N input.entries input.descriptors input.budget)
  if prefetch.candidateLogSeqEnds = [] then
    .ok (if input.entries = [] then some (emptyPlan input prefetch) else none)
  else do
    match ← admitFrom N input prefetch 0 none prefetch.candidateLogSeqEnds with
    | none => .ok none
    | some admitted => do
      let plan ← throws (admittedPlan N snapshotHash input prefetch admitted)
      .ok (some plan)

end Baerly
