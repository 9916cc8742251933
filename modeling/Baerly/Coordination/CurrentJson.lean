import Baerly.Errors
import Mathlib.Algebra.Order.Ring.Rat
import Mathlib.Data.Rat.Cast.Defs

/-
  `current.json`, the per-collection control object (`protocol/src/coordination/current-json.ts`).

  PROGRAM: the record itself, the accessors every consumer reads its floors through, the
  single-state guard `assertCurrentJson` over a parsed JSON value, and the before/after admission
  check `assertCurrentJsonTransition`.

  SPEC: what a published value must look like when it is read back (`assertCurrentJson_toJson_iff`:
  exactly the well-formed records survive the encoder and the guard), and what one publication may
  change (`Publisher.Owns`: every field the publisher does not own is the one it replaced).

  Counters are exact naturals: the manifest is parsed over the rationals, so `Number.isInteger`
  is `den = 1`.  Members the code never reads are not modelled.
-/

namespace Baerly

/-- A bucket key. -/
abbrev Key := JsString

/-- `NO_GENERATION`: what an absent generation is read as. -/
def noGeneration : JsString := js "-"

/-! ## The record -/

/-- `WriterFence`. -/
structure WriterFence where
  epoch : Nat
  owner : JsString
  claimedAt : JsString
  leaseUntil : Option JsString
  deriving DecidableEq

/-- `CurrentJson`; the optional members are the ones that postdate the schema version. -/
structure CurrentJson where
  snapshot : Option Key
  tailHint : Nat
  logSeqStart : Nat
  writerFence : WriterFence
  snapshotBytes : Nat
  snapshotRows : Nat
  meanEntryBytes : Option Nat
  lastWarnedSeq : Option Nat
  logDeleteFloor : Option Nat
  generation : Option JsString
  deriving DecidableEq

/-- `logDeleteFloorOf`: absent means that no deleted prefix is certified. -/
def logDeleteFloorOf (c : CurrentJson) : Nat :=
  c.logDeleteFloor.getD 0

/-- `certifiedDeleteFloor`: the stored floor clamped down to `log_seq_start`. -/
def certifiedDeleteFloor (c : CurrentJson) : Nat :=
  min (logDeleteFloorOf c) c.logSeqStart

theorem certifiedDeleteFloor_le (c : CurrentJson) : certifiedDeleteFloor c ≤ c.logSeqStart :=
  Nat.min_le_right _ _

theorem certifiedDeleteFloor_of_le {c : CurrentJson} (h : logDeleteFloorOf c ≤ c.logSeqStart) :
    certifiedDeleteFloor c = logDeleteFloorOf c :=
  Nat.min_eq_left h

/-! ## The single-state guard -/

/-- `CURRENT_JSON_SCHEMA_VERSION`. -/
def currentJsonSchemaVersion : Nat := 3

/-- A parsed manifest body. -/
abbrev RawJson := Json ℚ

/-- The fence as it is written: an absent lease writes no member. -/
def WriterFence.toJson (f : WriterFence) : RawJson :=
  .obj <|
    [(js "epoch", .num f.epoch), (js "owner", .str f.owner),
     (js "claimed_at", .str f.claimedAt)] ++
    match f.leaseUntil with
    | some l => [(js "lease_until", .str l)]
    | none => []

/-- `encodeJson`, up to the bytes: absent members are not written. -/
def CurrentJson.toJson (c : CurrentJson) : RawJson :=
  let opt (name : String) (v : Option Nat) : List (JsString × RawJson) :=
    match v with
    | some n => [(js name, .num n)]
    | none => []
  .obj <|
    [(js "schema_version", .num (currentJsonSchemaVersion : ℚ)),
     (js "snapshot", match c.snapshot with | some k => .str k | none => .null),
     (js "tail_hint", .num c.tailHint),
     (js "log_seq_start", .num c.logSeqStart),
     (js "writer_fence", c.writerFence.toJson),
     (js "snapshot_bytes", .num c.snapshotBytes),
     (js "snapshot_rows", .num c.snapshotRows)] ++
    opt "mean_entry_bytes" c.meanEntryBytes ++
    opt "last_warned_seq" c.lastWarnedSeq ++
    opt "log_delete_floor" c.logDeleteFloor ++
    match c.generation with
    | some g => [(js "generation", .str g)]
    | none => []

/-- `typeof v === "number" && Number.isInteger(v) && v >= 0`, with the value it then has. -/
def nonNegInteger : Option RawJson → Option Nat
  | some (.num q) => if q.den = 1 ∧ 0 ≤ q.num then some q.num.toNat else none
  | _ => none

/-- `GENERATION_RE = /^[0-9a-f]+$/`. -/
def generationOk (g : JsString) : Bool :=
  g ≠ [] ∧ g.all fun u => (48 ≤ u.val ∧ u.val ≤ 57) ∨ (97 ≤ u.val ∧ u.val ≤ 102)

/-- A required counter: present, or the field's own message. -/
def requireCounter (key : Key) (r : RawJson) (name : String) : Except Err Nat :=
  match nonNegInteger (r.member (js name)) with
  | some n => .ok n
  | none => .error (.mk .invalidResponse
      s!"current.json at {showKey key}: {name} must be a non-negative integer")

/-- An optional counter: absent is fine, present must be a counter. -/
def optionalCounter (key : Key) (r : RawJson) (name : String) : Except Err (Option Nat) :=
  match r.member (js name) with
  | none => .ok none
  | some v =>
    match nonNegInteger (some v) with
    | some n => .ok (some n)
    | none => .error (.mk .invalidResponse
        s!"current.json at {showKey key}: {name} must be a non-negative integer if present")

/-- A required string of the fence. -/
def requireFenceString (key : Key) (f : RawJson) (name : String) : Except Err JsString :=
  match f.member (js name) with
  | some (.str s) => .ok s
  | _ => .error (.mk .invalidResponse
      s!"current.json at {showKey key}: writer_fence.{name} must be a string")

/-- The `writer_fence` part of the guard. -/
def assertWriterFence (key : Key) (f : RawJson) : Except Err WriterFence := do
  let epoch ← match nonNegInteger (f.member (js "epoch")) with
    | some n => .ok n
    | none => .error (.mk .invalidResponse
        s!"current.json at {showKey key}: writer_fence.epoch must be a non-negative integer")
  let owner ← requireFenceString key f "owner"
  let claimedAt ← requireFenceString key f "claimed_at"
  let leaseUntil ← match f.member (js "lease_until") with
    | none => .ok none
    | some (.str s) => .ok (some s)
    | some _ => .error (.mk .invalidResponse
        s!"current.json at {showKey key}: writer_fence.lease_until must be string if present")
  .ok { epoch, owner, claimedAt, leaseUntil }

/-- `String(v)` of a member that need not be a scalar. -/
def showScalar : Option RawJson → String
  | none => "undefined"
  | some .null => "null"
  | some (.bool b) => toString b
  | some (.num q) => toString q
  | some (.str s) => showKey s
  | some (.arr _) => "[array]"
  | some (.obj _) => "[object Object]"

/-- The schema-version check, which names the pre-0.3.0 versions separately. -/
def assertSchemaVersion (key : Key) (r : RawJson) : Except Err Unit :=
  let v := r.member (js "schema_version")
  if v = some (.num 1) ∨ v = some (.num 2) then
    .error (.mk .invalidResponse
      (s!"current.json at {showKey key} uses schema v{if v = some (.num 1) then 1 else 2} from a " ++
        "pre-0.3.0 internal build; this build requires schema v3. Dump/restore with the old " ++
        "build, or re-provision scratch/local buckets."))
  else if v ≠ some (.num (currentJsonSchemaVersion : ℚ)) then
    .error (.mk .invalidResponse
      (s!"current.json at {showKey key}: unsupported schema_version {showScalar v}; this build " ++
        "requires 3. This almost always means stale scratch data from a different build — wipe " ++
        "the local dev bucket (e.g. `rm -rf .baerly-data`) or recreate the R2/S3 bucket, then " ++
        "retry."))
  else .ok ()

/-- The text of the generation check. -/
def generationMessage : String :=
  "generation must be a non-empty lowercase-hex string if present"

/-- `assertCurrentJson`: the checks in the source's order.  The bound
    `log_delete_floor <= log_seq_start` is deliberately not one of them. -/
def assertCurrentJson (key : Key) (parsed : RawJson) : Except Err CurrentJson := do
  if !parsed.isObjectLike then
    .error (.mk .invalidResponse
      s!"current.json at {showKey key}: parsed body is not an object")
  else
  assertSchemaVersion key parsed
  let snapshot ← match parsed.member (js "snapshot") with
    | some (.str k) => .ok (some k)
    | some .null => .ok none
    | _ => .error (.mk .invalidResponse
        s!"current.json at {showKey key}: snapshot must be string|null")
  let tailHint ← requireCounter key parsed "tail_hint"
  let logSeqStart ← requireCounter key parsed "log_seq_start"
  if tailHint < logSeqStart then
    .error (.mk .invalidResponse
      s!"current.json at {showKey key}: log_seq_start {logSeqStart} > tail_hint {tailHint}")
  else
  let writerFence ← match parsed.member (js "writer_fence") with
    | some f =>
      if f.isObjectLike then assertWriterFence key f
      else .error (.mk .invalidResponse
        s!"current.json at {showKey key}: writer_fence missing")
    | none => .error (.mk .invalidResponse
        s!"current.json at {showKey key}: writer_fence missing")
  let snapshotBytes ← requireCounter key parsed "snapshot_bytes"
  let snapshotRows ← requireCounter key parsed "snapshot_rows"
  let lastWarnedSeq ← optionalCounter key parsed "last_warned_seq"
  let logDeleteFloor ← optionalCounter key parsed "log_delete_floor"
  let meanEntryBytes ← optionalCounter key parsed "mean_entry_bytes"
  let generation ← match parsed.member (js "generation") with
    | none => .ok none
    | some (.str g) =>
      if generationOk g then .ok (some g)
      else .error (.mk .invalidResponse
        s!"current.json at {showKey key}: {generationMessage}")
    | some _ => .error (.mk .invalidResponse
        s!"current.json at {showKey key}: {generationMessage}")
  .ok { snapshot, tailHint, logSeqStart, writerFence, snapshotBytes, snapshotRows,
        meanEntryBytes, lastWarnedSeq, logDeleteFloor, generation }

/-- What the single-state guard leaves to check once the types are right. -/
structure CurrentJson.WellFormed (c : CurrentJson) : Prop where
  start_le : c.logSeqStart ≤ c.tailHint
  generation : ∀ g, c.generation = some g → generationOk g = true

@[simp] theorem nonNegInteger_natCast (n : Nat) :
    nonNegInteger (some (.num (n : ℚ))) = some n := by
  simp [nonNegInteger]

/-! Reading back the members `toJson` wrote.  An optional member sits behind the optional ones
before it, so its lookup splits on their presence. -/

section Members

variable (c : CurrentJson)

theorem toJson_snapshot : c.toJson.member (js "snapshot") =
    some (match c.snapshot with | some k => .str k | none => .null) := rfl

theorem toJson_tailHint : c.toJson.member (js "tail_hint") = some (.num (c.tailHint : ℚ)) := rfl

theorem toJson_logSeqStart :
    c.toJson.member (js "log_seq_start") = some (.num (c.logSeqStart : ℚ)) := rfl

theorem toJson_snapshotBytes :
    c.toJson.member (js "snapshot_bytes") = some (.num (c.snapshotBytes : ℚ)) := rfl

theorem toJson_snapshotRows :
    c.toJson.member (js "snapshot_rows") = some (.num (c.snapshotRows : ℚ)) := rfl

theorem toJson_meanEntryBytes : c.toJson.member (js "mean_entry_bytes") =
    c.meanEntryBytes.map fun n => .num (n : ℚ) := by
  obtain ⟨_, _, _, _, _, _, mean, warned, floor, gen⟩ := c
  cases mean <;> cases warned <;> cases floor <;> cases gen <;> rfl

theorem toJson_lastWarnedSeq : c.toJson.member (js "last_warned_seq") =
    c.lastWarnedSeq.map fun n => .num (n : ℚ) := by
  obtain ⟨_, _, _, _, _, _, mean, warned, floor, gen⟩ := c
  cases mean <;> cases warned <;> cases floor <;> cases gen <;> rfl

theorem toJson_logDeleteFloor : c.toJson.member (js "log_delete_floor") =
    c.logDeleteFloor.map fun n => .num (n : ℚ) := by
  obtain ⟨_, _, _, _, _, _, mean, warned, floor, gen⟩ := c
  cases mean <;> cases warned <;> cases floor <;> cases gen <;> rfl

theorem toJson_generation : c.toJson.member (js "generation") = c.generation.map .str := by
  obtain ⟨_, _, _, _, _, _, mean, warned, floor, gen⟩ := c
  cases mean <;> cases warned <;> cases floor <;> cases gen <;> rfl

end Members

theorem requireCounter_ok {key : Key} {r : RawJson} {name : String} {n : Nat}
    (h : r.member (js name) = some (.num (n : ℚ))) : requireCounter key r name = .ok n := by
  rw [requireCounter, h, nonNegInteger_natCast]

theorem optionalCounter_ok {key : Key} {r : RawJson} {name : String} {v : Option Nat}
    (h : r.member (js name) = v.map fun n => .num (n : ℚ)) :
    optionalCounter key r name = .ok v := by
  cases v with
  | none => rw [optionalCounter, h]; rfl
  | some n => simp [optionalCounter, h]

/-- The fence survives its own guard. -/
theorem assertWriterFence_toJson (key : Key) (f : WriterFence) :
    assertWriterFence key f.toJson = .ok f := by
  obtain ⟨epoch, owner, claimedAt, lease⟩ := f
  have hepoch : (WriterFence.toJson ⟨epoch, owner, claimedAt, lease⟩).member (js "epoch") =
      some (.num (epoch : ℚ)) := rfl
  unfold assertWriterFence
  rw [hepoch, nonNegInteger_natCast]
  cases lease with
  | none => rfl
  | some l => rfl

/-- What the guard makes of an encoded record: only the order of the two counters and the text of
    the generation are left to check. -/
theorem assertCurrentJson_toJson_eq (key : Key) (c : CurrentJson) :
    assertCurrentJson key c.toJson =
      if c.tailHint < c.logSeqStart then
        .error (.mk .invalidResponse
          s!"current.json at {showKey key}: log_seq_start {c.logSeqStart} > tail_hint {c.tailHint}")
      else
        match c.generation with
        | none => .ok c
        | some g =>
          if generationOk g then .ok c
          else .error (.mk .invalidResponse
            s!"current.json at {showKey key}: {generationMessage}") := by
  have hf : c.toJson.member (js "writer_fence") = some c.writerFence.toJson := rfl
  have hobj : c.writerFence.toJson.isObjectLike = true := rfl
  have hfence := assertWriterFence_toJson key c.writerFence
  have hversion : assertSchemaVersion key c.toJson = .ok () := by
    have hmem : c.toJson.member (js "schema_version") =
        some (.num (currentJsonSchemaVersion : ℚ)) := rfl
    simp [assertSchemaVersion, hmem, currentJsonSchemaVersion]
  have hlike : c.toJson.isObjectLike = true := rfl
  unfold assertCurrentJson
  rw [hlike, hversion, requireCounter_ok (toJson_tailHint c),
    requireCounter_ok (toJson_logSeqStart c), requireCounter_ok (toJson_snapshotBytes c),
    requireCounter_ok (toJson_snapshotRows c), optionalCounter_ok (toJson_lastWarnedSeq c),
    optionalCounter_ok (toJson_logDeleteFloor c), optionalCounter_ok (toJson_meanEntryBytes c),
    toJson_snapshot, toJson_generation, hf]
  obtain ⟨snap, tail, start, fence, bytes, rows, mean, warned, floor, gen⟩ := c
  by_cases hlt : tail < start
  · cases snap <;> simp_all [bind, Except.bind]
  · cases gen with
    | none => cases snap <;> simp_all [bind, Except.bind]
    | some g =>
      by_cases hg : generationOk g = true
      · cases snap <;> simp_all [bind, Except.bind]
      · cases snap <;> simp_all [bind, Except.bind]

/-- **Read-back.**  A record survives the encoder and the single-state guard unchanged exactly
    when it is well formed. -/
theorem assertCurrentJson_toJson_iff (key : Key) (c : CurrentJson) :
    assertCurrentJson key c.toJson = .ok c ↔ c.WellFormed := by
  rw [assertCurrentJson_toJson_eq]
  constructor
  · intro h
    split at h
    next => cases h
    next hle =>
      refine ⟨by omega, ?_⟩
      intro g hg
      rw [hg] at h
      by_cases hok : generationOk g = true
      · exact hok
      · simp [hok] at h
  · intro h
    rw [if_neg (Nat.not_lt.mpr h.start_le)]
    cases hg : c.generation with
    | none => rfl
    | some g => simp [h.generation g hg]

/-- A record the guard accepts comes back as itself. -/
theorem assertCurrentJson_toJson_self {key : Key} {c c' : CurrentJson}
    (h : assertCurrentJson key c.toJson = .ok c') : c' = c := by
  rw [assertCurrentJson_toJson_eq] at h
  split at h
  · cases h
  · split at h
    · cases h; rfl
    · split at h
      · cases h; rfl
      · cases h

/-! ## Transitions

`assertCurrentJsonTransition` is the admission check every publisher of a new version calls; it
compares the two floors, reading an absent `log_delete_floor` as `0` on both sides.  It does not
look at `tail_hint`, at `generation` or at who owns which field: those hold because of how each
publisher builds its value. -/

/-- `assertCurrentJsonTransition`. -/
def assertCurrentJsonTransition (key : Key) (before after : CurrentJson) : Except Err Unit :=
  if after.logSeqStart < before.logSeqStart then
    .error (.mk .internal (s!"current.json at {showKey key}: log_seq_start must not decrease " ++
      s!"({before.logSeqStart} → {after.logSeqStart})"))
  else if logDeleteFloorOf after < logDeleteFloorOf before then
    .error (.mk .internal (s!"current.json at {showKey key}: log_delete_floor must not decrease " ++
      s!"({logDeleteFloorOf before} → {logDeleteFloorOf after})"))
  else if after.logSeqStart < logDeleteFloorOf after then
    .error (.mk .internal (s!"current.json at {showKey key}: log_delete_floor must not exceed " ++
      s!"log_seq_start ({logDeleteFloorOf after} > {after.logSeqStart})"))
  else .ok ()

theorem assertCurrentJsonTransition_ok {key : Key} {before after : CurrentJson} {u : Unit}
    (h : assertCurrentJsonTransition key before after = .ok u) :
    before.logSeqStart ≤ after.logSeqStart ∧ logDeleteFloorOf before ≤ logDeleteFloorOf after ∧
      logDeleteFloorOf after ≤ after.logSeqStart := by
  unfold assertCurrentJsonTransition at h
  split at h
  · cases h
  · split at h
    · cases h
    · split at h
      · cases h
      · omega

/-- Who publishes a new version of an existing manifest. -/
inductive Publisher where
  /-- `compact`, when the tail probe ran out of budget. -/
  | checkpoint
  /-- `compact`, after writing a snapshot. -/
  | fold
  /-- The `tail_hint` refresh of the maintenance tick. -/
  | refresh
  /-- `retireLogRange`. -/
  | retire
  /-- Either of the two writes of `claimWriter`. -/
  | claim
  deriving DecidableEq

/-- The version with the publisher's own fields taken from `after` and every other field from
    `before`. -/
def Publisher.overlay (before after : CurrentJson) : Publisher → CurrentJson
  | .checkpoint => { before with tailHint := after.tailHint }
  | .fold => { before with
      snapshot := after.snapshot, logSeqStart := after.logSeqStart, tailHint := after.tailHint,
      snapshotBytes := after.snapshotBytes, snapshotRows := after.snapshotRows,
      meanEntryBytes := after.meanEntryBytes }
  | .refresh => { before with tailHint := after.tailHint, lastWarnedSeq := after.lastWarnedSeq }
  | .retire => { before with logDeleteFloor := after.logDeleteFloor }
  | .claim => { before with writerFence := after.writerFence }

/-- **What one publication may do** to the version it replaces. -/
structure Transition (pub : Publisher) (before after : CurrentJson) : Prop where
  generation_eq : after.generation = before.generation
  start_mono : before.logSeqStart ≤ after.logSeqStart
  hint_mono : before.tailHint ≤ after.tailHint
  floor_mono : logDeleteFloorOf before ≤ logDeleteFloorOf after
  floor_le : logDeleteFloorOf after ≤ after.logSeqStart
  start_le : after.logSeqStart ≤ after.tailHint
  /-- Fields the publisher does not own are the ones it replaced. -/
  owns : after = pub.overlay before after

/-- No publisher owns the generation. -/
theorem Publisher.overlay_generation {pub : Publisher} {before after : CurrentJson}
    (h : after = pub.overlay before after) : after.generation = before.generation := by
  rw [h]
  cases pub <;> rfl

/-- A published version passes the single-state guard if the version it replaced did. -/
theorem Transition.wellFormed {pub : Publisher} {before after : CurrentJson}
    (h : Transition pub before after) (hb : before.WellFormed) : after.WellFormed := by
  refine ⟨h.start_le, ?_⟩
  intro g hg
  rw [h.generation_eq] at hg
  exact hb.generation g hg

/-- What the admission check leaves for a publisher to establish. -/
theorem Transition.of_assert {key : Key} {pub : Publisher} {before after : CurrentJson} {u : Unit}
    (hok : assertCurrentJsonTransition key before after = .ok u)
    (howns : after = pub.overlay before after) (hhint : before.tailHint ≤ after.tailHint)
    (hle : after.logSeqStart ≤ after.tailHint) : Transition pub before after := by
  obtain ⟨hstart, hfloor, hbound⟩ := assertCurrentJsonTransition_ok hok
  exact ⟨Publisher.overlay_generation howns, hstart, hhint, hfloor, hbound, hle, howns⟩

end Baerly
