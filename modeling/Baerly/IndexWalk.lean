import Baerly.IndexKeys
import Baerly.Query
import Baerly.Query.Planner

/-
  The index walk (`runIndexWalkPlan` of `server/src/query.ts`).

  PROGRAM: list the markers a plan selects, take the doc id off the end of each key, fold snapshot
  and log for those ids only, and apply the whole predicate to what is left.

  `keys` is the bucket the walk lists.  A listing is ascending in the UTF-8 bytes of the keys; the
  walk compares value segments as JavaScript strings.  The batches of an `in` walk are run one
  after the other here: their ids are collected in the order of the values either way.
-/

namespace Baerly

open Async

/-! ## Listing -/

/-- `storage.list(p, { startAfter })`, drained. -/
def storageList (keys : List Key) (p : Key) (startAfter : Option Key) : List Key :=
  (keys.filter fun key => p.isPrefixOf key &&
    startAfter.all fun s => decide (Utf8.encode s < Utf8.encode key)).insertionSort
      fun a b => Utf8.encode a ≤ Utf8.encode b

/-- `RANGE_EXCLUSIVE_LOWER_SENTINEL`. -/
def rangeExclusiveLowerSentinel : JsString := js "~"

/-- `eqPrefix`. -/
def eqPrefix (N : NumberText) (c : Collection) (plan : IndexWalkPlan) : Key :=
  let encodedSegments := plan.equalityKeys.map (encodeIndexValue N)
  if encodedSegments = [] then c.collectionPrefix ++ js "/index/" ++ plan.indexName ++ js "/"
  else c.collectionPrefix ++ js "/index/" ++ plan.indexName ++ js "/" ++
    List.intercalate (js "/") encodedSegments ++ js "/"

/-- The doc id in the last segment of a key.  The suffix holds no slash, so a key ends in it iff
    its last segment does. -/
def docIdOf (tail : Key) : Option JsString :=
  let last := basename tail
  if (js ".json").isSuffixOf last then
    let docId := last.take (last.length - (js ".json").length)
    if docId = [] then none else some docId
  else none

/-- The doc ids under a listed prefix: the equality walk, and `walkOne` of an `in` walk. -/
def walkUnder (keys : List Key) (p : Key) : List JsString :=
  (storageList keys p none).filterMap fun key => docIdOf (key.drop p.length)

/-! ## The range walk -/

/-- Is the segment below the lower bound? -/
def belowLower (N : NumberText) (r : RangeOpInfo) (valueSeg : JsString) : Bool :=
  (r.lo.map (encodeIndexValue N)).any fun loEncoded => decide (valueSeg < loEncoded)

/-- Is it past the upper bound? -/
def pastUpper (N : NumberText) (r : RangeOpInfo) (valueSeg : JsString) : Bool :=
  (r.hi.map (encodeIndexValue N)).any fun hiEncoded =>
    if r.hiInclusive then decide (hiEncoded < valueSeg) else decide (hiEncoded ≤ valueSeg)

/-- The loop of the range walk, which ends at the first segment past the upper bound. -/
def rangeLoop (N : NumberText) (r : RangeOpInfo) (p : Key) : List Key → List JsString
  | [] => []
  | key :: keys =>
    let tail := key.drop p.length
    let valueSeg := tail.takeWhile (· ≠ slash)
    if !tail.contains slash then rangeLoop N r p keys
    else if belowLower N r valueSeg then rangeLoop N r p keys
    else if pastUpper N r valueSeg then []
    else
      match docIdOf tail with
      | some docId => docId :: rangeLoop N r p keys
      | none => rangeLoop N r p keys

/-- Where the range walk starts: past the bucket of an exclusive lower bound. -/
def rangeStart (N : NumberText) (r : RangeOpInfo) (p : Key) : Option Key :=
  if r.loInclusive then none
  else r.lo.map fun lo => p ++ encodeIndexValue N lo ++ js "/" ++ rangeExclusiveLowerSentinel

/-! ## The walk -/

/-- `docIdSet`, in the order the ids were added. -/
def walkIds (N : NumberText) (c : Collection) (keys : List Key) (plan : IndexWalkPlan) :
    List JsString :=
  let p := eqPrefix N c plan
  let ids :=
    match plan.rangeOn, plan.inOn with
    | some (_, r), _ => rangeLoop N r p (storageList keys p (rangeStart N r p))
    | none, some (_, values) =>
      values.flatMap fun value => walkUnder keys (p ++ encodeIndexValue N value ++ js "/")
    | none, none => walkUnder keys p
  ids.eraseDups

/-- A matched row of the snapshot. -/
def seedRow (baseDocs docs : Rows) (id : JsString) : Rows :=
  match baseDocs.get id with
  | some seeded => docs.set id seeded
  | none => docs

/-- The matched rows of the snapshot. -/
def seedRows (baseDocs : Rows) (docIds : List JsString) : Rows :=
  docIds.foldl (seedRow baseDocs) InsMap.empty

/-- `runIndexWalkPlan`. -/
def runIndexWalkPlan (codec : Codec) (N : NumberText) (c : Collection) (keys : List Key)
    (head : CurrentJson) (wire : Option PredicateWire) (plan : IndexWalkPlan) : Task ReadRows := do
  let docIds := walkIds N c keys plan
  let logSeqStart := head.logSeqStart
  let hint := head.tailHint
  -- the probe runs even with nothing matched: the caller reports the tail
  let (tail, probed) ← probeTailFrom c .scan (max logSeqStart hint)
  if docIds = [] then .ret ⟨[], tail, none⟩
  else
    let baseDocs ← loadBase codec c head
    let entries ← walkLogRange c .scan logSeqStart hint
    let docs := foldLogEntriesOnto c.collectionName (some docIds)
      (foldLogEntriesOnto c.collectionName (some docIds) (seedRows baseDocs docIds) entries) probed
    let rows ← Task.ofExcept (match wire with
      | none => .ok docs.entries
      | some wire => filterRows wire docs.entries)
    .ret ⟨rows, tail, some ⟨head, baseDocs, entries ++ probed⟩⟩

end Baerly
