import Baerly.Compactor

/-
  The consistency walk of one collection (`cli/src/admin/fsck.ts`, default mode).

  PROGRAM: read the manifest, load its snapshot, and look for holes in the log.  Which slots are
  present is read off ONE listing of `log/`: a name of digits and `.json` stands for the number the
  digits convert to.  No log object is fetched.

  What `storage.list` yields is an argument, as in `Baerly.RebuildIndex`.  `Number.parseInt` rounds
  to the nearest double, and above `2^53` adding one to a number need not change it.
-/

namespace Baerly.Fsck

open Async

/-! ## Numbers -/

/-- The double nearest to a natural number, ties to even, before the range check. -/
def roundNat (n : Nat) : Nat :=
  if n < 2 ^ 53 then n
  else
    let unit := 2 ^ (n.log2 - 52)
    if 2 * (n % unit) < unit ∨ (2 * (n % unit) = unit ∧ n / unit % 2 = 0) then n / unit * unit
    else (n / unit + 1) * unit

/-- What rounds to `2^1024` is infinite. -/
def infinite : Nat := (2 ^ 256) ^ 4

/-- `Number.parseInt(digits, 10)`, where it is finite. -/
def parseInt (digits : JsString) : Option Nat :=
  let n := roundNat (ofDigits digits)
  if n < infinite then some n else none

/-! ## The report -/

/-- The checks of the default mode that report findings. -/
inductive Check where
  | snapshot | log
  deriving DecidableEq

/-- `Finding`; all of this mode have severity `finding`. -/
structure Finding where
  check : Check
  message : String
  key : Key
  deriving DecidableEq

/-- What the command emits. -/
structure Report where
  findings : List Finding
  logFrom : Nat
  logToExcl : Nat
  logEntriesPresent : Nat

/-! ## The snapshot -/

/-- The errors that become a finding. -/
def isSnapshotFinding (e : Err) : Bool :=
  e.code? = some .internal ∨ e.code? = some .invalidResponse

/-- The snapshot loads, or that is a finding. -/
def checkSnapshot (codec : Codec) (c : Collection) (cur : CurrentJson) : Task (List Finding) :=
  match cur.snapshot with
  | none => .ret []
  | some snapshotKey =>
    (do
      let _ ← loadSnapshotAsMap codec snapshotKey c.collectionName
      .ret []).tryCatch fun e =>
        if isSnapshotFinding e then .ret [⟨.snapshot, e.message, snapshotKey⟩] else .throw e

/-! ## The log -/

/-- `` `${collectionPrefix}/log/` ``. -/
def logPrefix (c : Collection) : Key := c.collectionPrefix ++ js "/log/"

/-- The seq a listed key stands for: `/^(\d+)\.json$/` on its tail. -/
def seqOfKey (c : Collection) (key : Key) : Option Nat :=
  let tail := key.drop (logPrefix c).length
  let digits := tail.takeWhile isDigit
  if digits ≠ [] ∧ tail.drop digits.length = js ".json" then parseInt digits else none

/-- `presentSeqs`. -/
def presentSeqs (c : Collection) (presentKeys : List Key) : List Nat :=
  presentKeys.filterMap (seqOfKey c)

/-- `if (seq > maxSeq) maxSeq = seq`. -/
def raise (maxSeq : Int) (seq : Nat) : Int := if maxSeq < seq then seq else maxSeq

/-- `maxSeq`. -/
def maxSeq (c : Collection) (logFrom : Nat) (presentKeys : List Key) : Int :=
  (presentSeqs c presentKeys).foldl raise (logFrom - 1)

/-- `logToExcl`. -/
def logToExcl (c : Collection) (cur : CurrentJson) (presentKeys : List Key) : Nat :=
  max cur.tailHint (roundNat (maxSeq c cur.logSeqStart presentKeys + 1).toNat)

/-- The finding of a hole. -/
def missing (c : Collection) (s : Nat) : Finding where
  check := .log
  message := s!"missing log entry at seq {s} inside [log_seq_start, tail)"
  key := logObjectKey c.collectionPrefix s

/-- The slots the loop looks at.  It counts up by one, so it never ends where it has to get past
    `2^53`. -/
def walked (logFrom stop : Nat) : Option (List Nat) :=
  if stop ≤ logFrom ∨ stop ≤ 2 ^ 53 then some (List.range' logFrom (stop - logFrom)) else none

/-- `fsck` in its default mode; `none` is a run that never ends. -/
def fsck (codec : Codec) (c : Collection) (presentKeys : List Key) : Task (Option Report) := do
  match ← readCurrentJson c with
  | none => .throw (.mk .invalidConfig
      s!"baerly admin fsck: current.json not found at {showKey c.currentJsonKey}")
  | some cur =>
    let findings ← checkSnapshot codec c cur
    let present := presentSeqs c presentKeys
    let stop := logToExcl c cur presentKeys
    .ret ((walked cur.logSeqStart stop).map fun seqs =>
      { findings := findings ++ (seqs.filter fun s => !present.contains s).map (missing c)
        logFrom := cur.logSeqStart
        logToExcl := stop
        logEntriesPresent := (seqs.filter fun s => present.contains s).length })

end Baerly.Fsck
