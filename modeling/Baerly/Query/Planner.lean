import Baerly.Indexes
import Baerly.Query.Implies
import Mathlib.Data.List.Sort

/-
  The query planner (`server/src/query-planner.ts`).

  PROGRAM: partition the clauses of a wire by field into equalities, ranges and sets; let every
  index consume a left-anchored equality run plus one tail slot; rank what is viable and walk the
  best one, or scan.

  A filtered index whose filter the query does not imply is ranked last, not dropped: with nothing
  better it is walked.
-/

namespace Baerly

/-- `IN_FANOUT_THRESHOLD`. -/
def inFanoutThreshold : Nat := 50

/-- `RangeOpInfo`, also while it is accumulated. -/
structure RangeOpInfo where
  lo : Option Doc
  hi : Option Doc
  loInclusive : Bool
  hiInclusive : Bool

/-- Which slot of a walk extends the equality run. -/
inductive TailSlot where
  | range (field : JsString) (info : RangeOpInfo)
  | members (field : JsString) (values : List Doc)

/-- `IndexWalkPlan`. -/
structure IndexWalkPlan where
  indexName : JsString
  equalityKeys : List Doc
  rangeOn : Option (JsString × RangeOpInfo)
  inOn : Option (JsString × List Doc)

/-- Why the planner scans. -/
inductive ScanReason where
  | noPredicate | noIndexesDeclared | noMatchingIndex | predicateUsesOperatorsOnly
  deriving DecidableEq

/-- `QueryPlan`. -/
inductive QueryPlan where
  | indexWalk (plan : IndexWalkPlan)
  | fullScan (reason : ScanReason)

/-! ## Partition -/

/-- The four maps of the first pass. -/
structure Partition where
  equality : InsMap JsString Doc
  rangeOps : InsMap JsString RangeOpInfo
  inOps : InsMap JsString (List Doc)
  unroutable : List JsString

/-- A field whose clauses mix channels is left to the post-filter. -/
def Partition.giveUp (p : Partition) (field : JsString) : Partition where
  equality := p.equality.erase field
  rangeOps := p.rangeOps.erase field
  inOps := p.inOps.erase field
  unroutable := field :: p.unroutable

/-- `===` on two parsed values: objects are never identical. -/
def strictEqual : Doc → Doc → Bool
  | .arr _, _ => false
  | .obj _, _ => false
  | a, b => a = b

/-- `bound === undefined || v > bound`. -/
def raises (E : Engine) (bound : Option Doc) (v : Doc) : Except Err Bool :=
  match bound with
  | none => .ok true
  | some b => jsLess E b v

/-- `bound === undefined || v < bound`. -/
def lowers (E : Engine) (bound : Option Doc) (v : Doc) : Except Err Bool :=
  match bound with
  | none => .ok true
  | some b => jsLess E v b

/-- One range clause onto the accumulator. -/
def tightenRange (E : Engine) (acc : RangeOpInfo) (v : Doc) :
    PredicateOp → Except Err RangeOpInfo
  | .gte => do
    if ← raises E acc.lo v then .ok { acc with lo := some v, loInclusive := true } else .ok acc
  | .gt => do
    if ← raises E acc.lo v then .ok { acc with lo := some v, loInclusive := false }
    else if acc.lo.any fun lo => strictEqual v lo then .ok { acc with loInclusive := false }
    else .ok acc
  | .lte => do
    if ← lowers E acc.hi v then .ok { acc with hi := some v, hiInclusive := true } else .ok acc
  | .lt => do
    if ← lowers E acc.hi v then .ok { acc with hi := some v, hiInclusive := false }
    else if acc.hi.any fun hi => strictEqual v hi then .ok { acc with hiInclusive := false }
    else .ok acc
  | _ => .ok acc

/-- The body of the partition loop. -/
def partitionClause (E : Engine) (p : Partition) (clause : PredicateClause) :
    Except Err Partition :=
  let field := clause.field
  if p.unroutable.contains field then .ok p
  else
    match clause.op with
    | .eq =>
      if p.inOps.has field || p.rangeOps.has field then .ok (p.giveUp field)
      else .ok { p with equality := p.equality.set field clause.value }
    | .in =>
      if p.equality.has field || p.rangeOps.has field || p.inOps.has field then
        .ok (p.giveUp field)
      else
        match clause.value with
        | .arr values => .ok { p with inOps := p.inOps.set field values }
        | _ => .ok { p with unroutable := field :: p.unroutable }
    | op =>
      if p.equality.has field || p.inOps.has field then .ok (p.giveUp field)
      else do
        let acc := (p.rangeOps.get field).getD ⟨none, none, false, false⟩
        let acc' ← tightenRange E acc clause.value op
        .ok { p with rangeOps := p.rangeOps.set field acc' }

/-- The first pass over the clauses. -/
def partitionClauses (E : Engine) : Partition → List PredicateClause → Except Err Partition
  | p, [] => .ok p
  | p, clause :: clauses => do
    let p' ← partitionClause E p clause
    partitionClauses E p' clauses

/-! ## Candidates -/

/-- `Candidate`. -/
structure Candidate where
  definition : IndexDefinition
  defIndex : Nat
  prefixLen : Nat
  equalityKeys : List Doc
  tail : Option TailSlot

/-- Consume the fields of an index: equalities as far as they go, then at most one tail slot. -/
def consumeFields (p : Partition) : List JsString → List Doc → List Doc × Option TailSlot
  | [], keys => (keys, none)
  | field :: fields, keys =>
    match p.equality.get field with
    | some v => consumeFields p fields (keys ++ [v])
    | none =>
      match p.rangeOps.get field, p.inOps.get field with
      | some info, _ => (keys, some (.range field info))
      | none, some values => (keys, some (.members field values))
      | none, none => (keys, none)

/-- The candidates of the indexes from number `defIndex` on; an index that consumes nothing is
    none. -/
def candidatesFrom (p : Partition) : Nat → List IndexDefinition → List Candidate
  | _, [] => []
  | defIndex, d :: defs =>
    let (equalityKeys, tail) := consumeFields p d.on.tuple []
    let candidateLen := equalityKeys.length + (if tail.isSome then 1 else 0)
    if candidateLen = 0 then candidatesFrom p (defIndex + 1) defs
    else ⟨d, defIndex, candidateLen, equalityKeys, tail⟩ :: candidatesFrom p (defIndex + 1) defs

/-- `rank`: an implied filter before no filter before a filter that is not implied. -/
def rank (E : Engine) (wire : PredicateWire) (c : Candidate) : Except Err Nat :=
  match c.definition.predicate with
  | none => .ok 1
  | some filter => do
    if ← predicateImplies E filter wire then .ok 0 else .ok 2

/-- The comparator of the sort, on ranked candidates. -/
def precedes (a b : Nat × Candidate) : Bool :=
  if a.1 ≠ b.1 then a.1 < b.1
  else if b.2.prefixLen ≠ a.2.prefixLen then b.2.prefixLen < a.2.prefixLen
  else a.2.defIndex ≤ b.2.defIndex

/-- Rank every candidate. -/
def rankAll (E : Engine) (wire : PredicateWire) :
    List Candidate → Except Err (List (Nat × Candidate))
  | [] => .ok []
  | c :: cs => do
    let r ← rank E wire c
    let rest ← rankAll E wire cs
    .ok ((r, c) :: rest)

/-- `candidates.sort(…)`.  The ranks are computed by the comparator, so a single candidate is
    never ranked. -/
def sortCandidates (E : Engine) (wire : PredicateWire) :
    List Candidate → Except Err (List Candidate)
  | [] => .ok []
  | [c] => .ok [c]
  | cs => do
    let ranked ← rankAll E wire cs
    .ok ((ranked.insertionSort fun a b => precedes a b).map Prod.snd)

/-! ## The plan -/

/-- The walk over a candidate. -/
def Candidate.plan (c : Candidate) : IndexWalkPlan where
  indexName := c.definition.name
  equalityKeys := c.equalityKeys
  rangeOn := match c.tail with
    | some (.range field info) => some (field, info)
    | _ => none
  inOn := match c.tail with
    | some (.members field values) => some (field, values)
    | _ => none

/-- The walk over the best candidate, unless its set fans out too far. -/
def planBest (best : Candidate) : QueryPlan :=
  match best.tail with
  | some (.members _ values) =>
    if inFanoutThreshold < values.length then .fullScan .noMatchingIndex else .indexWalk best.plan
  | _ => .indexWalk best.plan

/-- The part of `planQuery` from the partition on. -/
def planPartition (E : Engine) (wire : PredicateWire) (indexes : List IndexDefinition)
    (p : Partition) : Except Err QueryPlan :=
  if p.equality.size = 0 ∧ p.rangeOps.size = 0 ∧ p.inOps.size = 0 then
    .ok (.fullScan .predicateUsesOperatorsOnly)
  else do
    match ← sortCandidates E wire (candidatesFrom p 0 indexes) with
    | [] => .ok (.fullScan .noMatchingIndex)
    | best :: _ => .ok (planBest best)

/-- Nothing has been partitioned yet. -/
def Partition.empty : Partition := ⟨InsMap.empty, InsMap.empty, InsMap.empty, []⟩

/-- `planQuery`. -/
def planQuery (E : Engine) (wire : Option PredicateWire) (indexes : List IndexDefinition) :
    Except Err QueryPlan :=
  match wire with
  | none => .ok (.fullScan .noPredicate)
  | some wire =>
    if wire.clauses = [] then .ok (.fullScan .noPredicate)
    else if indexes = [] then .ok (.fullScan .noIndexesDeclared)
    else do
      let p ← partitionClauses E .empty wire.clauses
      planPartition E wire indexes p

end Baerly
