import Baerly.Compactor
import Baerly.Query.Matches
import Baerly.Writer

/-
  The full-scan read and the insert verb (`server/src/query.ts`).

  PROGRAM: `runReadRows` GETs the manifest, loads its snapshot, walks `[log_seq_start, tail_hint)`
  strictly, probes forward to the first missing slot, folds, and filters.  `runInsert` runs that
  read for its own id and hands the tail it folded through to the writer as an insert guard.

  Index walks are not part of this module: `runInsert` passes `indexes: []` to its own read.
  `toSorted` enters as a rearrangement of the rows, which is what it is under any comparator.
-/

namespace Baerly

open Async

/-! ## Reading -/

/-- `StoredRow`: the key a row is stored under, and the row. -/
abbrev StoredRow := JsString × Doc

/-- `toSorted(compare)` for some comparator. -/
structure RowSort where
  sort : List StoredRow → List StoredRow
  perm : ∀ rows, (sort rows).Perm rows

/-- `QueryState`. -/
structure QueryState where
  wire : Option PredicateWire
  order : Option RowSort
  limit : Option Nat

/-- `FoldedState`. -/
structure FoldedState where
  head : CurrentJson
  base : Rows
  tail : List LogEntry

/-- What `runReadRows` resolves with; `folded` is absent on an unprovisioned collection. -/
structure ReadRows where
  rows : List StoredRow
  tail : Nat
  folded : Option FoldedState

/-- The rows a predicate keeps; evaluating it may throw. -/
def filterRows (wire : PredicateWire) : List StoredRow → Except Err (List StoredRow)
  | [] => .ok []
  | row :: rows => do
    let keep ← matchesWire wire row.2
    let rest ← filterRows wire rows
    .ok (if keep then row :: rest else rest)

/-- Step 4: the primary-key fast path, or the scan. -/
def applyPredicate (wire : Option PredicateWire) (docs : Rows) : Except Err (List StoredRow) :=
  match singleIdFromPredicate wire with
  | some id => .ok (((docs.get id).map fun doc => (id, doc)).toList)
  | none =>
    match wire with
    | none => .ok docs.entries
    | some w => filterRows w docs.entries

/-- Steps 5 and 6. -/
def applyOrderLimit (state : QueryState) (rows : List StoredRow) : List StoredRow :=
  let sorted := match state.order with
    | some order => order.sort rows
    | none => rows
  match state.limit with
  | some limit => sorted.take limit
  | none => sorted

/-- `runReadRows` on the full-scan path. -/
def runReadRows (codec : Codec) (c : Collection) (why : Purpose) (state : QueryState) :
    Task ReadRows := do
  match ← readCurrentJson c with
  | none => .ret ⟨[], 0, none⟩
  | some head =>
    let hint := head.tailHint
    let logSeqStart := head.logSeqStart
    let baseDocs ← loadBase codec c head
    let entries ← walkLogRange c why logSeqStart hint
    let (tail, probed) ← probeTailFrom c why (max logSeqStart hint)
    let docs := foldLogEntriesOnto c.collectionName none
      (foldLogEntriesOnto c.collectionName none baseDocs entries) probed
    let rows ← Task.ofExcept (applyPredicate state.wire docs)
    .ret ⟨applyOrderLimit state rows, tail, some ⟨head, baseDocs, entries ++ probed⟩⟩

/-! ## Inserting -/

/-- What the insert verb is called with besides the document. -/
structure InsertContext where
  writer : WriterConfig
  /-- `validateOrThrow(schema, body)`: `none` accepts. -/
  validate : Doc → Option Err
  /-- `capacityRefusal` of the planned write under the host's ceilings. -/
  capacityRefusal : FoldedState → JsString → Doc → Option Err

/-- `{ ...doc, _id }`: an own `_id` keeps its place. -/
def spreadId (members : List (JsString × Doc)) (id : JsString) : List (JsString × Doc) :=
  if members.any (·.1 = js "_id") then
    members.map fun m => if m.1 = js "_id" then (m.1, .str id) else m
  else members ++ [(js "_id", .str id)]

/-- The caller's non-empty string `_id`, or the minted one. -/
def resolveId (members : List (JsString × Doc)) (uuidv7 : JsString) : JsString :=
  match members.lookup (js "_id") with
  | some (.str id) => if id = [] then uuidv7 else id
  | _ => uuidv7

/-- The `commit` an insert makes once its check found no row. -/
def insertInput (c : Collection) (id : JsString) (body : Doc) (absentBelowSeq : Nat)
    (minted : Bool) : CommitInput where
  op := .I
  collection := c.collectionName
  docId := id
  body := some body
  origin := none
  insertGuard := some ⟨absentBelowSeq, minted⟩

/-- `runInsert`, keeping what the writer returned when it got that far. -/
def runInsertOutcome (codec : Codec) (c : Collection) (session : Nat) (ctx : InsertContext)
    (members : List (JsString × Doc)) (uuidv7 : JsString) (mintedId : Option JsString) :
    Task (JsString × Option CommitSuccess) := do
  let id := resolveId members uuidv7
  Task.ofExcept (assertDocId ctx.writer.normalizeNfc id)
  if mintedId.any fun m => m ≠ id then
    .throw (.mk .invalidConfig ("insert: mintedId " ++ quote (mintedId.getD []) ++
      " is not the document _id " ++ quote id))
  else
  let body : Doc := .obj (spreadId members id)
  match ctx.validate body with
  | some e => .throw e
  | none =>
    let existing ← runReadRows codec c .check ⟨some (idWire id), none, some 1⟩
    match existing.rows.head? with
    | some live =>
      if mintedId.isSome ∧ insertReplaysRow body (some live.2) then .ret (id, none)
      else .throw (insertAlreadyExists c.collectionName id)
    | none =>
      match existing.folded.bind fun folded => ctx.capacityRefusal folded id body with
      | some e => .throw e
      | none =>
        let success ← commit ctx.writer c session
          (insertInput c id body existing.tail mintedId.isSome)
        .ret (id, some success)

end Baerly
