import Baerly.Compactor
import Baerly.IndexKeys

/-
  Reconciling one index with the live rows (`server/src/rebuild-index.ts`).

  PROGRAM: fold the snapshot and the log into the live rows, project the markers they should have,
  PUT those the bucket lacks and DELETE those nobody projects.  A dry run counts and writes nothing.

  The keys that `storage.list` yields under the index's prefix are an argument; reads before it do
  not change them.
-/

namespace Baerly

open Async

/-- `RebuildIndexResult`. -/
structure RebuildIndexResult where
  added : Nat
  removed : Nat
  kept : Nat
  deriving DecidableEq, Repr

/-- `set.add(key)`. -/
def addKey (keys : List Key) (key : Key) : List Key :=
  if key ∈ keys then keys else keys ++ [key]

/-- Step 2: the markers of the live rows, onto those so far. -/
def expectedKeys (N : NumberText) (c : Collection) (d : IndexDefinition) :
    List (JsString × Doc) → List Key → Except Err (List Key)
  | [], expected => .ok expected
  | (docId, body) :: rows, expected => do
    let keys ← allIndexKeysFor N c.collectionPrefix [d] (some body) docId
    expectedKeys N c d rows (keys.foldl addKey expected)

/-- Step 4, first loop: PUT what is missing. -/
def putMissing (actual : List Key) (dryRun : Bool) :
    List Key → RebuildIndexResult → Task RebuildIndexResult
  | [], result => .ret result
  | key :: keys, result =>
    if key ∈ actual then putMissing actual dryRun keys { result with kept := result.kept + 1 }
    else if dryRun then putMissing actual dryRun keys { result with added := result.added + 1 }
    else do
      match ← Prog.attempt (Task.write (.createMarker key)) with
      | .ok _ => putMissing actual dryRun keys { result with added := result.added + 1 }
      | .error e =>
        if e.isWriteConflict then
          putMissing actual dryRun keys { result with kept := result.kept + 1 }
        else .throw e

/-- Step 4, second loop: DELETE what is orphaned. -/
def deleteOrphans (expected : List Key) (dryRun : Bool) :
    List Key → RebuildIndexResult → Task RebuildIndexResult
  | [], result => .ret result
  | key :: keys, result =>
    if key ∈ expected then deleteOrphans expected dryRun keys result
    else if dryRun then
      deleteOrphans expected dryRun keys { result with removed := result.removed + 1 }
    else do
      let _ ← Task.write (.deleteMarker key)
      deleteOrphans expected dryRun keys { result with removed := result.removed + 1 }

/-- Step 1: the live rows. -/
def foldLive (codec : Codec) (c : Collection) (head : CurrentJson) : Task Rows := do
  let base ← loadBase codec c head
  let entries ← walkLogRange c .scan head.logSeqStart head.tailHint
  let (_, probed) ← probeTailFrom c .scan (max head.logSeqStart head.tailHint)
  .ret (foldLogEntriesOnto c.collectionName none
    (foldLogEntriesOnto c.collectionName none base entries) probed)

/-- `rebuildIndex`; `listing` is what `storage.list` yields under the index's prefix. -/
def rebuildIndex (N : NumberText) (codec : Codec) (c : Collection) (d : IndexDefinition)
    (listing : List Key) (dryRun : Bool) : Task RebuildIndexResult := do
  match ← readCurrentJson c with
  | none => .throw (.mk .invalidResponse
      s!"rebuildIndex: current.json missing at {quote c.currentJsonKey}")
  | some head =>
    if c.currentJsonKey.contains slash then do
      let live ← foldLive codec c head
      let expected ← Task.ofExcept (expectedKeys N c d live.entries [])
      let actual := listing.foldl addKey []
      let reconciled ← putMissing actual dryRun expected ⟨0, 0, 0⟩
      deleteOrphans expected dryRun actual reconciled
    else .throw (.mk .invalidResponse
      (s!"rebuildIndex: currentJsonKey {quote c.currentJsonKey} must contain \"/\""))

end Baerly
