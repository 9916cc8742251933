import Baerly.Capacity
import Baerly.Merge
import Baerly.Query.Planner
import Baerly.System

/-
  The verbs that write to rows that exist: update, replace, delete (`server/src/query.ts`).

  PROGRAM: read the matching rows, plan the commits of all of them (identity, merge, schema,
  capacity), then commit one row after the other.  The first commit that fails ends the verb; the
  rows before it stay.

  Each `await` of a verb is a thread of the system: its read, then one commit at a time, every
  commit under a session of its own.  A verb whose predicate an index serves reads by an index
  walk, which may return anything: markers can be stale, missing or behind.
-/

namespace Baerly

open Async

/-! ## Planning -/

/-- What a verb is called with besides its arguments. -/
structure MutationContext where
  engine : Engine
  numberText : NumberText
  indexes : List IndexDefinition
  writer : WriterConfig
  /-- `validateOrThrow(schema, body)`: `none` accepts. -/
  validate : Doc → Option Err
  ceilings : FoldCeilings

/-- `typeof`, as it is printed. -/
def typeText : Option Doc → String
  | none => "undefined"
  | some (.bool _) => "boolean"
  | some (.num _) => "number"
  | some (.str _) => "string"
  | some _ => "object"

/-- `storedRowId`. -/
def storedRowId (verb : String) (row : StoredRow) : Except Err JsString :=
  let id := row.2.member (js "_id")
  if id = some (.str row.1) then .ok row.1
  else
    let carried := match id with
      | some (.str s) => quote s
      | _ => s!"of type {typeText id}"
    .error (.mk .invalidResponse (s!"Query.{verb}: stored row {quote row.1} carries _id {carried}" ++
      "; repair it with replace(id, doc)"))

/-- `assertPatchKeepsId`. -/
def assertPatchKeepsId (patch : Doc) (docId : JsString) : Except Err Unit :=
  match patch with
  | .obj members =>
    match members.lookup (js "_id") with
    | none => .ok ()
    | some patchId =>
      if patchId = .str docId then .ok ()
      else .error (.mk .invalidConfig (s!"Query.update: a patch cannot change _id (row " ++
        s!"{quote docId}); omit _id from the patch"))
  | _ => .ok ()

/-- `refuseOverCapacity`. -/
def refuseOverCapacity (ctx : MutationContext) (c : Collection) (folded : Option FoldedState)
    (writes : List PlannedWrite) : Except Err Unit :=
  match folded with
  | none => .ok ()
  | some f =>
    match capacityRefusal ctx.numberText c.collectionName f.head.snapshotRows f.head.snapshotBytes
      f.base f.tail writes ctx.ceilings with
    | some refusal => .error refusal
    | none => .ok ()

/-- A row of the batch of an update. -/
structure PlannedUpdate where
  docId : JsString
  before : Doc
  merged : Doc

/-- The loop of `runUpdate` over the matched rows. -/
def planUpdate (ctx : MutationContext) (patch : Doc) :
    List StoredRow → Except Err (List PlannedUpdate)
  | [] => .ok []
  | row :: rows => do
    let docId ← storedRowId "update" row
    assertPatchKeepsId patch docId
    assertDocId ctx.writer.normalizeNfc docId
    match merge (some row.2) patch with
    | none => .error (.mk .schemaError
        s!"Query.update: merge produced undefined for doc {quote docId}")
    | some merged =>
      match ctx.validate merged with
      | some e => .error e
      | none =>
        let planned ← planUpdate ctx patch rows
        .ok (⟨docId, row.2, merged⟩ :: planned)

/-- A verb and its arguments. -/
inductive Mutation where
  | update (state : QueryState) (patch : Doc)
  | replace (id : JsString) (members : List (JsString × Doc))
  | delete (state : QueryState)

/-- What the verb reads. -/
def Mutation.reads : Mutation → QueryState
  | .update state _ => state
  | .replace id _ => ⟨some (idWire id), none, none⟩
  | .delete state => state

/-- What it checks before it reads. -/
def Mutation.precheck (ctx : MutationContext) : Mutation → Except Err Unit
  | .replace id _ => assertDocId ctx.writer.normalizeNfc id
  | _ => .ok ()

/-- A commit of the batch. -/
def mutationInput (c : Collection) (op : LogOp) (docId : JsString) (body : Option Doc) :
    CommitInput where
  op := op
  collection := c.collectionName
  docId := docId
  body := body
  origin := none
  insertGuard := none

/-- The commits of the verb, from what it read. -/
def Mutation.plan (ctx : MutationContext) (c : Collection) (read : ReadRows) :
    Mutation → Except Err (List CommitInput)
  | .update _ patch => do
    let planned ← planUpdate ctx patch read.rows
    refuseOverCapacity ctx c read.folded
      (planned.map fun p => ⟨.U, p.docId, some p.merged, some p.before⟩)
    .ok (planned.map fun p => mutationInput c .U p.docId (some p.merged))
  | .replace id members =>
    match read.rows.head? with
    | none => .error (.mk .notFound s!"No such row: {showKey id}")
    | some current =>
      let body : Doc := .obj (spreadId members id)
      match ctx.validate body with
      | some e => .error e
      | none => do
        refuseOverCapacity ctx c read.folded [⟨.U, id, some body, some current.2⟩]
        .ok [mutationInput c .U id (some body)]
  | .delete _ => do
    let docIds ← read.rows.mapM (storedRowId "delete")
    refuseOverCapacity ctx c read.folded (docIds.map fun docId => ⟨.D, docId, none, none⟩)
    .ok (docIds.map fun docId => mutationInput c .D docId none)

/-! ## Running -/

/-- Where a verb stands.  `count` is the number of rows committed so far. -/
inductive Stage where
  | reading (thread : Nat)
  | walking
  | committing (thread : Nat) (rest : List CommitInput) (count : Nat)
  | finished (result : Except Err Nat)

/-- A verb in progress, or done. -/
structure Ongoing where
  ctx : MutationContext
  verb : Mutation
  stage : Stage

/-- The deployed system with the verbs called so far. -/
structure PublicState where
  pool : State
  ongoing : List Ongoing

def PublicState.init : PublicState := ⟨State.init, []⟩

/-- What happens: a step of the system, a verb is called, the index walk of a verb returns, or a
    verb goes on because the thread it waits for is done. -/
inductive PublicAct (SystemAct : Type) where
  | system (act : SystemAct)
  | start (ctx : MutationContext) (verb : Mutation)
  | walked (j : Nat) (r : Except Err ReadRows)
  | resume (j : Nat)

section Steps

variable (codec : Codec) (c : Collection)

/-- Commits are spawned by the verbs only. -/
def spawnsCommit : Act (deployed codec c) → Bool
  | .spawn (.commit _ _) => true
  | _ => false

/-- A thread for a call. -/
def PublicState.spawn (σ : PublicState) (call : Call) : Option State :=
  (deployed codec c).next σ.pool (.spawn call)

/-- Commit the next row, or finish. -/
def PublicState.commitNext (σ : PublicState) (j : Nat) (o : Ongoing) (count : Nat) :
    List CommitInput → Option PublicState
  | [] => some { σ with ongoing := σ.ongoing.set j { o with stage := .finished (.ok count) } }
  | input :: rest => (σ.spawn codec c (.commit o.ctx.writer input)).map fun pool =>
      ⟨pool, σ.ongoing.set j { o with stage := .committing σ.pool.threads.length rest count }⟩

/-- The read of a verb came back. -/
def PublicState.planned (σ : PublicState) (j : Nat) (o : Ongoing) (r : Except Err ReadRows) :
    Option PublicState :=
  match r.bind fun read => o.verb.plan o.ctx c read with
  | .error e => some { σ with ongoing := σ.ongoing.set j { o with stage := .finished (.error e) } }
  | .ok inputs => σ.commitNext codec c j o 0 inputs

/-- Does the verb read on the full-scan path? -/
def Mutation.scans (ctx : MutationContext) (verb : Mutation) : Bool :=
  match planQuery ctx.engine verb.reads.wire ctx.indexes with
  | .ok (.fullScan _) => true
  | _ => false

/-- A verb is called. -/
def PublicState.start (σ : PublicState) (ctx : MutationContext) (verb : Mutation) :
    Option PublicState :=
  match verb.precheck ctx with
  | .error e => some { σ with ongoing := σ.ongoing ++ [⟨ctx, verb, .finished (.error e)⟩] }
  | .ok _ =>
    if verb.scans ctx then (σ.spawn codec c (.read verb.reads)).map fun pool =>
      ⟨pool, σ.ongoing ++ [⟨ctx, verb, .reading σ.pool.threads.length⟩]⟩
    else some { σ with ongoing := σ.ongoing ++ [⟨ctx, verb, .walking⟩] }

/-- A verb goes on, if what it waits for is there. -/
def PublicState.resume (σ : PublicState) (j : Nat) (o : Ongoing) : Option PublicState :=
  match o.stage with
  | .reading t =>
    match σ.pool.threads[t]? with
    | some ⟨.read _, _, .done r _⟩ => σ.planned codec c j o r
    | _ => none
  | .committing t rest count =>
    match σ.pool.threads[t]? with
    | some ⟨.commit _ _, _, .done (.ok _) _⟩ => σ.commitNext codec c j o (count + 1) rest
    | some ⟨.commit _ _, _, .done (.error e) _⟩ =>
      some { σ with ongoing := σ.ongoing.set j { o with stage := .finished (.error e) } }
    | _ => none
  | _ => none

/-- One step. -/
def PublicState.next (σ : PublicState) : PublicAct (Act (deployed codec c)) → Option PublicState
  | .system act =>
    if spawnsCommit codec c act then none
    else ((deployed codec c).next σ.pool act).map fun pool => { σ with pool := pool }
  | .start ctx verb => σ.start codec c ctx verb
  | .walked j r =>
    match σ.ongoing[j]? with
    | some ⟨ctx, verb, .walking⟩ => σ.planned codec c j ⟨ctx, verb, .walking⟩ r
    | _ => none
  | .resume j => (σ.ongoing[j]?).bind (σ.resume codec c j)

/-- Many steps. -/
def PublicState.run (σ : PublicState) : List (PublicAct (Act (deployed codec c))) → Option PublicState
  | [] => some σ
  | a :: as => (σ.next codec c a).bind fun σ' => σ'.run as

/-- The states insert, update, replace and delete can lead to, with maintenance running. -/
def PublicReachable (σ : PublicState) : Prop :=
  ∃ acts, PublicState.init.run codec c acts = some σ

end Steps

end Baerly
