import Baerly.Compactor
import Baerly.SnapshotCodec

/-
  Growth refusal at the host's fold ceiling (`server/src/capacity.ts`), with the encoder of
  `server/src/snapshot.ts` it measures rows by.

  The verbs decide a batch before its first commit, from the state their read loaded: the stored
  figures of `current.json`, the snapshot rows and the pending tail.  The projection keeps a size for
  each row it touched; nothing is encoded twice.

  Figures are integers: a head whose figures do not belong to its rows could drive them below zero.
  A ceiling is a number; a `NaN` ceiling, which refuses everything, is left out.
-/

namespace Baerly

open Utf8 (Byte)

/-! ## The encoding of a snapshot -/

/-- `SNAPSHOT_SCHEMA_VERSION`. -/
def snapshotSchemaVersion : Doc := .num (JsNumber.ofNat 1)

/-- `{ _id, body }`. -/
def rowJson (docId : JsString) (body : Doc) : Doc :=
  .obj [(js "_id", .str docId), (js "body", body)]

def SnapshotBody.toJson (s : SnapshotBody) : Doc :=
  .obj [(js "schema_version", snapshotSchemaVersion),
    (js "min_seq", .num (JsNumber.ofNat s.minSeq)), (js "max_seq", .num (JsNumber.ofNat s.maxSeq)),
    (js "collection", .str s.collection),
    (js "docs", .arr (s.docs.map fun row => rowJson row.1 row.2))]

/-- `encodeSnapshotBody`. -/
def encodeSnapshotBody (N : NumberText) (s : SnapshotBody) : List Byte :=
  encodeJsonBytes N s.toJson

/-! ## The projection -/

/-- `FoldCeilings`. -/
structure FoldCeilings where
  maxFoldBytes : Nat
  maxFoldRows : Nat

/-- `isFoldViable`. -/
def isFoldViable (snapshotBytes snapshotRows : Nat) (ceilings : FoldCeilings) : Bool :=
  snapshotBytes ≤ ceilings.maxFoldBytes && snapshotRows ≤ ceilings.maxFoldRows

/-- `CAPACITY_BYTES_MARGIN`. -/
def capacityBytesMargin : Nat := 64

/-- `PlannedWrite`. -/
structure PlannedWrite where
  op : LogOp
  docId : JsString
  after : Option Doc
  before : Option Doc

/-- `rowBytes`. -/
def rowBytes (N : NumberText) (docId : JsString) (body : Doc) : Nat :=
  (encodeJsonBytes N (rowJson docId body)).length + 1

/-- `emptySnapshotBytes`. -/
def emptySnapshotBytes (N : NumberText) (collection : JsString) : Nat :=
  (encodeSnapshotBody N ⟨0, 0, collection, []⟩).length

/-- `isGrowth`. -/
def isGrowth (N : NumberText) (write : PlannedWrite) : Bool :=
  match write.op with
  | .I => true
  | .D => false
  | .U =>
    match write.after with
    | none => false
    | some after => write.before.all fun before =>
      rowBytes N write.docId before < rowBytes N write.docId after

/-- `SnapshotProjection`: the base it reads, the size of each row it touched (`null` is an absent
    row) and its figures. -/
structure SnapshotProjection where
  base : Rows
  overlay : InsMap JsString (Option Nat)
  rows : Int
  bytes : Int
  peakRows : Int
  peakBytes : Int

namespace SnapshotProjection

/-- `sizeOf`. -/
def sizeOf (N : NumberText) (p : SnapshotProjection) (docId : JsString) : Option Nat :=
  match p.overlay.get docId with
  | some known => known
  | none => (p.base.get docId).map (rowBytes N docId)

/-- `addsRow`. -/
def addsRow (N : NumberText) (p : SnapshotProjection) (op : LogOp) (docId : JsString)
    (after : Option Doc) : Bool :=
  op ≠ .D && after.isSome && (p.sizeOf N docId).isNone

/-- A delete. -/
def drop (N : NumberText) (p : SnapshotProjection) (docId : JsString) : SnapshotProjection :=
  { p with
    rows := if (p.sizeOf N docId).isSome then p.rows - 1 else p.rows
    bytes := p.bytes - ((p.sizeOf N docId).getD 0 : Nat)
    overlay := p.overlay.set docId none }

/-- An insert or an update with a post-image. -/
def put (N : NumberText) (p : SnapshotProjection) (docId : JsString) (after : Doc) :
    SnapshotProjection :=
  let next := rowBytes N docId after
  let rows := if (p.sizeOf N docId).isNone then p.rows + 1 else p.rows
  let bytes := p.bytes + (next - ((p.sizeOf N docId).getD 0 : Nat))
  { p with
    rows := rows
    bytes := bytes
    overlay := p.overlay.set docId (some next)
    peakRows := max p.peakRows rows
    peakBytes := max p.peakBytes bytes }

/-- `apply`: an `I` or `U` with no post-image is skipped, as the fold skips it. -/
def apply (N : NumberText) (p : SnapshotProjection) (op : LogOp) (docId : JsString)
    (after : Option Doc) : SnapshotProjection :=
  match op, after with
  | .D, _ => p.drop N docId
  | _, none => p
  | _, some after => p.put N docId after

end SnapshotProjection

/-- `projectSnapshot`, from the figures of the head. -/
def projectSnapshot (N : NumberText) (snapshotRows snapshotBytes : Nat) (base : Rows)
    (collection : JsString) : SnapshotProjection :=
  let startBytes := if snapshotBytes = 0 then emptySnapshotBytes N collection else snapshotBytes
  { base := base
    overlay := InsMap.empty
    rows := snapshotRows
    bytes := startBytes
    peakRows := snapshotRows
    peakBytes := startBytes }

/-! ## The decision -/

/-- `refuse`. -/
def refuse (message : String) : Err := .mk .capacityExceeded message

/-- `noProgress`. -/
def noProgress (collection : JsString) (why : String) : Err :=
  refuse (s!"collection {showKey (JSON.quote collection)} has outgrown this host ({why}): no fold can "
    ++ "make progress here, so every write is refused and reads keep working. The collection "
    ++ "needs a larger host or graduation; export it with baerly admin dump.")

/-- The pending tail: the projection at its end, or the refusal at an entry the fold stops at. -/
def projectTail (N : NumberText) (collection : JsString) (ceilings : FoldCeilings) :
    SnapshotProjection → List LogEntry → Except Err SnapshotProjection
  | p, [] => .ok p
  | p, entry :: tail =>
    if entry.collection ≠ collection then projectTail N collection ceilings p tail
    else if p.addsRow N entry.op entry.docId entry.after &&
        !(p.rows < (ceilings.maxFoldRows : Int)) then
      .error (noProgress collection
        s!"a pending insert cannot fold onto {p.rows} rows of {ceilings.maxFoldRows}")
    else projectTail N collection ceilings (p.apply N entry.op entry.docId entry.after) tail

/-- Whether a growth write is refused at these peaks. -/
def overCeiling (ceilings : FoldCeilings) (p : SnapshotProjection) : Bool :=
  !(p.peakRows < (ceilings.maxFoldRows : Int)) ||
    !(p.peakBytes ≤ (ceilings.maxFoldBytes : Int) - capacityBytesMargin)

/-- The refusal of a growth write. -/
def growthRefusal (collection : JsString) (ceilings : FoldCeilings) (p : SnapshotProjection)
    (write : PlannedWrite) : Err :=
  let detail :=
    if !(p.peakRows < (ceilings.maxFoldRows : Int)) then
      s!"{p.peakRows} rows would reach the {ceilings.maxFoldRows}-row ceiling"
    else s!"{p.peakBytes} bytes would pass the {ceilings.maxFoldBytes}-byte ceiling"
  let verb := if write.op = .I then "insert" else "growing update"
  refuse (s!"collection {showKey (JSON.quote collection)} is full on this host: {detail}, so this "
    ++ s!"{verb} was refused and nothing was "
    ++ "committed. Deletes and same-size or shrinking updates still commit; delete or shrink "
    ++ "rows to make room. If the collection must keep growing, it needs a larger host or graduation.")

/-- The planned writes, one after the other. -/
def projectWrites (N : NumberText) (collection : JsString) (ceilings : FoldCeilings) :
    SnapshotProjection → List PlannedWrite → Option Err
  | _, [] => none
  | p, write :: writes =>
    let next := p.apply N write.op write.docId write.after
    if isGrowth N write && overCeiling ceilings next then
      some (growthRefusal collection ceilings next write)
    else projectWrites N collection ceilings next writes

/-- `capacityRefusal`: the error to throw, or `none` to commit. -/
def capacityRefusal (N : NumberText) (collection : JsString) (snapshotRows snapshotBytes : Nat)
    (base : Rows) (tail : List LogEntry) (writes : List PlannedWrite) (ceilings : FoldCeilings) :
    Option Err :=
  if writes = [] then none
  else if !isFoldViable snapshotBytes snapshotRows ceilings then
    some (noProgress collection (s!"{snapshotRows} rows of {ceilings.maxFoldRows}, "
      ++ s!"{snapshotBytes} bytes of {ceilings.maxFoldBytes}"))
  else
    match projectTail N collection ceilings
      (projectSnapshot N snapshotRows snapshotBytes base collection) tail with
    | .error refusal => some refusal
    | .ok p => projectWrites N collection ceilings p writes

end Baerly
