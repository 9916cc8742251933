import Baerly.Coordination.CurrentJson

/-
  `gc/pending.json`, the garbage collector's ledger
  (`protocol/src/coordination/gc-pending.ts`).

  Times are milliseconds: `due_at` and `last_swept_at` are only ever written by `toISOString` and
  compared through `Date.parse` or as strings of that one shape.
-/

namespace Baerly

/-- `GcCandidate["reason"]`; only `orphan-snapshot` is still emitted. -/
inductive GcReason where
  | staleLog | orphanSnapshot | orphanContent
  deriving DecidableEq, Repr

/-- `GcCandidate`. -/
structure GcCandidate where
  key : Key
  dueAt : Nat
  reason : GcReason
  generation : Option JsString
  deriving DecidableEq

/-- `GcPending`; an empty `last_swept_at` is `none`. -/
structure GcPending where
  candidates : List GcCandidate
  lastSweptAt : Option Nat
  deriving DecidableEq

/-- What a pass hands to the merge. -/
structure GcPass where
  sweptKeys : List Key
  newCandidates : List GcCandidate
  lastSweptAt : Option Nat
  maxCandidates : Nat

/-- `GC_MAX_PENDING_CANDIDATES`. -/
def gcMaxPendingCandidates : Nat := 1000

/-- `GC_PENDING_CAS_MAX_ATTEMPTS`. -/
def gcPendingCasMaxAttempts : Nat := 3

/-- The append loop of the merge: skip keys this pass resolved and keys already present. -/
def appendNew (swept : List Key) : List Key → List GcCandidate → List GcCandidate
  | _, [] => []
  | present, c :: cs =>
    if !swept.contains c.key ∧ !present.contains c.key then
      c :: appendNew swept (c.key :: present) cs
    else appendNew swept present cs

/-- `pass.lastSweptAt > latest.last_swept_at ? … : …`, with `""` below every date. -/
def laterOf : Option Nat → Option Nat → Option Nat
  | some a, some b => some (max a b)
  | some a, none => some a
  | none, b => b

/-- `mergeGcPending`. -/
def mergeGcPending (latest : GcPending) (pass : GcPass) : GcPending :=
  let surviving := latest.candidates.filter fun c => !pass.sweptKeys.contains c.key
  let appended := appendNew pass.sweptKeys (surviving.map (·.key)) pass.newCandidates
  { candidates := (surviving ++ appended).take pass.maxCandidates
    lastSweptAt := laterOf pass.lastSweptAt latest.lastSweptAt }

/-- `assertGcPending`, on a record whose types are right: every key is non-empty. -/
def assertGcPending (key : Key) (p : GcPending) : Except Err Unit :=
  match p.candidates.findIdx? fun c => c.key = [] with
  | some i => .error (.mk .invalidResponse
      s!"gc/pending.json at {showKey key}: candidates[{i}].key must be a non-empty string")
  | none => .ok ()

theorem mem_appendNew {swept present : List Key} {c : GcCandidate} {cs : List GcCandidate}
    (h : c ∈ appendNew swept present cs) : c ∈ cs := by
  induction cs generalizing present with
  | nil => cases h
  | cons d cs ih =>
    unfold appendNew at h
    split at h
    · rcases List.mem_cons.mp h with h | h
      · exact h ▸ List.mem_cons_self
      · exact List.mem_cons_of_mem _ (ih h)
    · exact List.mem_cons_of_mem _ (ih h)

/-- Every merged candidate was in the latest ledger or was marked by the pass. -/
theorem mem_mergeGcPending {latest : GcPending} {pass : GcPass} {c : GcCandidate}
    (h : c ∈ (mergeGcPending latest pass).candidates) :
    c ∈ latest.candidates ∨ c ∈ pass.newCandidates := by
  have hmem := List.mem_of_mem_take h
  rcases List.mem_append.mp hmem with h' | h'
  · exact Or.inl (List.mem_of_mem_filter h')
  · exact Or.inr (mem_appendNew h')

end Baerly
