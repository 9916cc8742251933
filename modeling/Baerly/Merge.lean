import Baerly.Json
import Baerly.Lib.InsMap

/-
  Applying a patch to a document (`merge` of `protocol/src/json.ts`).

  PROGRAM: a patch that is no object replaces the target; a patch object is merged into a target
  object member by member, `null` removing a member and the names that reach a prototype being
  skipped; a patch object that meets anything else is taken as it is.  `undefined` is `none`.

  `mergePatch` is not the source's: it is the reference recursion of JSON Merge Patch (RFC 7386),
  with the same names dropped.
-/

namespace Baerly

variable {N : Type}

/-- `FORBIDDEN_MERGE_KEYS`. -/
def forbiddenMergeKeys : List JsString := [js "__proto__", js "constructor", js "prototype"]

def isForbiddenKey (key : JsString) : Bool := forbiddenMergeKeys.contains key

/-- `isPlainObject`, with the members. -/
def plainMembers : Option (Json N) → Option (List (JsString × Json N))
  | some (.obj ms) => some ms
  | _ => none

/-- `combined[key] = value`.  Only a `null` patch merges to `undefined`, so `none` is never
    assigned. -/
def assign (key : JsString) (value : Option (Json N)) (combined : List (JsString × Json N)) :
    List (JsString × Json N) :=
  match value with
  | some value => InsMap.setEntry key value combined
  | none => combined

mutual

/-- `merge(target, patch)`. -/
def merge (target : Option (Json N)) : Json N → Option (Json N)
  | .null => none
  | .obj patch =>
    match plainMembers target with
    | some members => some (.obj (mergeMembers members members patch))
    | none => some (.obj patch)
  | patch => some patch

/-- The loop over the keys of a patch object, onto `combined`. -/
def mergeMembers (target combined : List (JsString × Json N)) :
    List (JsString × Json N) → List (JsString × Json N)
  | [] => combined
  | (key, value) :: patch =>
    if isForbiddenKey key then mergeMembers target combined patch
    else
      match value with
      | .null => mergeMembers target (combined.filter fun m => m.1 ≠ key) patch
      | value =>
        mergeMembers target (assign key (merge (target.lookup key) value) combined) patch

end

mutual

/-- `MergePatch(Target, Patch)` of the RFC. -/
def mergePatch (target : Option (Json N)) : Json N → Json N
  | .obj patch => .obj (mergePatchMembers ((plainMembers target).getD []) patch)
  | patch => patch

/-- "For each Name/Value pair in Patch". -/
def mergePatchMembers (target : List (JsString × Json N)) :
    List (JsString × Json N) → List (JsString × Json N)
  | [] => target
  | (key, value) :: patch =>
    if isForbiddenKey key then mergePatchMembers target patch
    else
      match value with
      | .null => mergePatchMembers (target.filter fun m => m.1 ≠ key) patch
      | value =>
        mergePatchMembers (InsMap.setEntry key (mergePatch (target.lookup key) value) target) patch

end

end Baerly
