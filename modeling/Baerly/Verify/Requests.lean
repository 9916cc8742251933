import Baerly.System

/-
  What the calls ask for, whatever they are answered.

  One rule for each function, over any class `G` of requests that has everything in it but manifest
  writes, log creates and marker writes.  Where a function does one of these, the rule asks that `G`
  has that one write.
-/

namespace Baerly

open Async

/-- A request that writes no manifest. -/
def Op.SparesManifest : Op → Prop
  | .send (.createCurrent _) => False
  | .send (.casCurrent _ _ _) => False
  | _ => True

/-- A request that is neither a manifest write nor one of the writes of a commit. -/
def Op.Routine : Op → Prop
  | .send (.createCurrent _) => False
  | .send (.casCurrent _ _ _) => False
  | .send (.createLog _ _ _) => False
  | .send (.createMarker _) => False
  | .send (.deleteMarker _) => False
  | _ => True

/-- A routine request leaves the manifest alone. -/
theorem Op.Routine.spares {op : Op} (h : op.Routine) : op.SparesManifest := by
  cases op with
  | send r =>
    cases r with
    | createCurrent m => exact h
    | casCurrent pub before after => exact h
    | _ => trivial
  | _ => trivial

/-- A write of `current.json`. -/
def Req.isManifestWrite : Req → Bool
  | .createCurrent _ => true
  | .casCurrent _ _ _ => true
  | _ => false

/-- Writing another object leaves the manifest. -/
theorem applyReq_cur {w w₁ : World} {r : Req} (hr : r.isManifestWrite = false)
    (ha : applyReq w r = some w₁) : w₁.cur = w.cur := by
  cases r <;> simp only [applyReq] at ha
  case createCurrent | casCurrent => cases hr
  case putSnapshot | deleteMarker | deleteLog | deleteSnapshot => cases ha; rfl
  case createMarker =>
    split at ha
    · cases ha
    · cases ha; rfl
  all_goals
    split at ha
    · cases ha; rfl
    · cases ha

section Requests

variable {G : Op → Prop} {α β : Type} {Q : α → Prop}

/-- What was computed without the bucket asks for nothing. -/
theorem asks_ofExcept {x : Except Err α} (h : ∀ a, x = .ok a → Q a) :
    (Task.ofExcept x).Asks G Q := by
  cases x with
  | ok a => exact h a rfl
  | error e => trivial

theorem asks_check {x : Except Err α} : (Task.ofExcept x).Asks G (fun _ => True) :=
  asks_ofExcept fun _ _ => trivial

/-- A request whose answer is thrown if it is an error. -/
theorem asks_get {op : Op} {k : Resp op → Except Err α} (hop : G op) :
    (Prog.call op fun r => Task.ofExcept (k r)).Asks G (fun _ => True) :=
  ⟨hop, fun _ => asks_check⟩

variable (hspare : ∀ op : Op, op.Routine → G op)

include hspare

theorem asks_write {r : Req} (h : G (.send r)) : (Task.write r).Asks G (fun _ => True) :=
  ⟨h, fun id => asks_get (hspare (.await id) trivial)⟩

/-- Waiting for a message that was sent is not checked. -/
theorem asks_outcome (id : Nat) : (Task.outcome id).Asks G (fun _ => True) :=
  asks_get (hspare (.await id) trivial)

/-- A list of tasks asks for no more than each of them. -/
theorem asks_all {f : α → Task β} (hf : ∀ a, (f a).Asks G (fun _ => True)) (xs : List α) :
    (Task.all f xs).Asks G (fun _ => True) :=
  ⟨hspare _ trivial, fun _ => Prog.Asks.gather hf _⟩

omit hspare in
/-- Sending a batch asks for each of its messages. -/
theorem asks_sendAll {rs : List Req} (h : ∀ r ∈ rs, G (.send r)) :
    (Task.sendAll rs).Asks G (fun _ => True) := by
  induction rs with
  | nil => trivial
  | cons r rs ih =>
    refine ⟨h r (by simp), fun id => ?_⟩
    exact (ih fun r' hr' => h r' (by simp [hr'])).bind fun _ _ => trivial

/-- So does a batch of writes, whatever is done about their outcomes. -/
theorem asks_writeAll {settle : Task (Option JsString) → Task Unit} {rs : List Req}
    (hsettle : ∀ id, (settle (Task.outcome id)).Asks G (fun _ => True))
    (h : ∀ r ∈ rs, G (.send r)) : (Task.writeAll settle rs).Asks G (fun _ => True) :=
  (asks_sendAll h).bind fun _ _ => (asks_all hspare hsettle _).bind fun _ _ => trivial

/-! ## The manifest -/

/-- A manifest that was read is well formed: `assertCurrentJson` has seen it. -/
theorem asks_readCurrentJson (c : Collection) :
    (readCurrentJson c).Asks G (fun v => ∀ m, v = some m → m.WellFormed) := by
  refine ⟨hspare .getCurrent trivial, fun r => asks_check.bind ?_⟩
  rintro (_ | body) _
  · exact nofun
  · refine (asks_ofExcept fun _ h => h).bind ?_
    intro json hjson m hm
    cases hm
    have hself := assertCurrentJson_toJson_self hjson
    subst hself
    exact (assertCurrentJson_toJson_iff _ _).mp hjson

/-- Writing the manifest asks for the one message, which the caller answers for. -/
theorem asks_writeCurrent {c : Collection} {r : Req} (h : G (.send r)) :
    (writeCurrent c r).Asks G (fun _ => True) :=
  (asks_write hspare h).tryCatch fun _ => trivial

/-- A read-modify-write sends the one version its mutator built and both guards passed. -/
theorem asks_casUpdateCurrentJson {c : Collection} {pub : Publisher}
    {mutator : CurrentJson → Except Err (CurrentJson × α)}
    (hsend : ∀ before after x, before.WellFormed → mutator before = .ok (after, x) →
      after.WellFormed → assertCurrentJsonTransition c.currentJsonKey before after = .ok () →
      G (.send (.casCurrent pub before after))) :
    (casUpdateCurrentJson c pub mutator).Asks G (fun _ => True) := by
  refine (asks_readCurrentJson hspare c).bind ?_
  rintro (_ | before) hread
  · trivial
  · have hwf := hread before rfl
    refine (asks_ofExcept fun _ h => h).bind ?_
    rintro ⟨after, x⟩ hx
    refine (asks_ofExcept fun _ h => h).bind fun json hjson => ?_
    have hself := assertCurrentJson_toJson_self hjson
    subst hself
    have hwf' : json.WellFormed := (assertCurrentJson_toJson_iff _ _).mp hjson
    refine (asks_ofExcept fun _ h => h).bind fun u hok => ?_
    exact (asks_writeCurrent hspare (hsend before json x hwf hx hwf' hok)).bind fun _ _ => trivial

/-! ## Retirement -/

/-- A retirement publishes one `retire` transition of a well-formed manifest; the DELETEs after it
    are routine. -/
theorem asks_retireLogRange (c : Collection) (opts : RetireOptions)
    (hsend : ∀ before after, Transition .retire before after → before.WellFormed →
      G (.send (.casCurrent .retire before after))) :
    (retireLogRange c opts).Asks G (fun _ => True) := by
  refine (asks_readCurrentJson hspare c).bind ?_
  rintro (_ | read) _
  · trivial
  · show Prog.Asks G _ (if _ then _ else _)
    split
    · trivial
    · refine Prog.Asks.bind (asks_casUpdateCurrentJson hspare ?_) ?_
      · intro before after x hwf hx hwf' hok
        simp only [authorizeRetirement] at hx
        split at hx
        · cases hx
        · cases hx
          exact hsend before _ (.of_assert hok rfl (Nat.le_refl _) hwf'.start_le) hwf
      · rintro ⟨json, range⟩ _
        show Prog.Asks G _ (if _ then _ else _)
        split
        · trivial
        · refine Prog.Asks.bind (asks_writeAll hspare ?_ ?_) fun _ _ => trivial
          · intro id
            exact (asks_outcome hspare id).bind fun _ _ => trivial
          · intro r hr
            obtain ⟨n, _, rfl⟩ := List.mem_map.mp hr
            exact hspare _ trivial

/-! ## Garbage collection -/

/-- Reading the ledger is routine. -/
theorem asks_readGcPending (c : Collection) : (readGcPending c).Asks G (fun _ => True) := by
  refine Prog.Asks.bind (p := Task.getPending) (asks_get (hspare _ trivial)) ?_
  rintro (_ | p) _
  · trivial
  · exact asks_check.bind fun _ _ => trivial

/-- Writing the ledger asks for the one message. -/
theorem asks_writePending {c : Collection} {r : Req} (h : G (.send r)) :
    (writePending c r).Asks G (fun _ => True) :=
  (asks_write hspare h).tryCatch fun _ => trivial

/-- A retried update of the ledger is routine in each of its attempts. -/
theorem asks_casUpdateGcPending (c : Collection) (mutator : GcPending → GcPending) :
    ∀ (attempts : Nat) (last : Err),
      (casUpdateGcPending c mutator attempts last).Asks G (fun _ => True) := by
  intro attempts
  induction attempts with
  | zero => exact fun _ => trivial
  | succ attempts ih =>
    intro last
    refine (asks_readGcPending hspare c).bind ?_
    rintro (_ | existing) _
    · trivial
    · refine asks_check.bind fun _ _ => ?_
      refine (asks_writePending hspare (r := .casPending _ _) (hspare _ trivial)).attempt.bind ?_
      rintro (e | date) _
      · show Prog.Asks G _ (if _ then _ else _)
        split
        · exact ih e
        · trivial
      · trivial

/-- So is making the ledger where there is none. -/
theorem asks_readOrCreatePending (c : Collection) :
    (readOrCreatePending c).Asks G (fun _ => True) := by
  refine (asks_readGcPending hspare c).bind ?_
  rintro (_ | p) _
  · refine (asks_writePending hspare (r := .createPending _) (hspare _ trivial)).attempt.bind ?_
    rintro (e | date) _
    · show Prog.Asks G _ (if _ then _ else _)
      split
      · refine (asks_readGcPending hspare c).bind ?_
        rintro (_ | p) _
        · trivial
        · trivial
      · trivial
    · trivial
  · trivial

/-- Marking orphans only lists and reads. -/
theorem asks_markOrphans (c : Collection) (current : CurrentJson) (grace : Nat)
    (known keys : List Key) : (markOrphans c current grace known keys).Asks G (fun _ => True) := by
  induction keys with
  | nil => trivial
  | cons key keys ih =>
    rw [markOrphans]
    split
    · exact ih
    · exact ⟨hspare .now trivial, fun _ => ih.bind fun _ _ => trivial⟩

/-- A pass is recorded in the ledger and nowhere else. -/
theorem asks_recordPass (c : Collection) (pass : GcPass) (remaining : Nat) :
    (recordPass c pass remaining).Asks G (fun _ => True) := by
  refine (asks_casUpdateGcPending hspare c _ _ _).attempt.bind ?_
  rintro (e | updated) _
  · show Prog.Asks G _ (if _ then _ else _)
    split
    · trivial
    · trivial
  · trivial

omit hspare in
/-- Sweeping a candidate deletes a log entry or a snapshot. -/
theorem routine_sweepRequest (c : Collection) (cand : GcCandidate) :
    (Op.send (sweepRequest c cand)).Routine := by
  unfold sweepRequest
  split
  · trivial
  · trivial

/-- A sweep asks for routine requests only: it touches neither manifest nor markers. -/
theorem asks_sweepPass (c : Collection) (opts : RunGcOptions) (current : CurrentJson)
    (fresh : Option CurrentJson) (nowMs : Nat) (pending newCandidates : List GcCandidate) :
    (sweepPass c opts current fresh nowMs pending newCandidates).Asks G (fun _ => True) := by
  refine Prog.Asks.bind (asks_writeAll hspare ?_ ?_) fun _ _ => ?_
  · intro id
    exact (asks_outcome hspare id).bind fun _ _ => trivial
  · intro r hr
    obtain ⟨cand, _, rfl⟩ := List.mem_map.mp hr
    exact hspare _ (routine_sweepRequest c cand)
  · refine Prog.Asks.bind (Q := fun _ => True) ?_ fun sweptAt _ => ?_
    · split
      · trivial
      · exact ⟨hspare .now trivial, fun _ => trivial⟩
    · exact (asks_recordPass hspare c _ _).bind fun _ _ => trivial

/-- So does a whole GC run. -/
theorem asks_runGc (c : Collection) (opts : RunGcOptions) :
    (runGc c opts).Asks G (fun _ => True) := by
  refine (asks_readCurrentJson hspare c).bind ?_
  rintro (_ | current) _
  · trivial
  · refine (asks_readOrCreatePending hspare c).bind fun pending _ => ?_
    refine Prog.Asks.bind (p := Task.listSnapshots _) (asks_get (hspare _ trivial)) fun keys _ => ?_
    refine (asks_markOrphans hspare c current _ _ keys).bind fun newCandidates _ => ?_
    have hnow : Task.now.Asks G (fun _ => True) := ⟨hspare .now trivial, fun _ => trivial⟩
    refine hnow.bind fun nowMs _ => ?_
    refine Prog.Asks.bind (Q := fun _ => True) ?_ fun fresh _ => asks_sweepPass hspare c _ _ _ _ _ _
    split
    · exact (asks_readCurrentJson hspare c).mono fun _ _ => trivial
    · trivial

end Requests

/-! ## What a class of requests has to have -/

/-- The class has every routine request, and every manifest write the guards let through. -/
structure Admits (G : Op → Prop) : Prop where
  routine : ∀ op : Op, op.Routine → G op
  create : ∀ m : CurrentJson, m.WellFormed → G (.send (.createCurrent m))
  replace : ∀ (pub : Publisher) (before after : CurrentJson), Transition pub before after →
    before.WellFormed → G (.send (.casCurrent pub before after))

section Calls

variable {G : Op → Prop} {α β : Type} {Q : α → Prop} (hG : Admits G)

include hG

/-- Provisioning creates a manifest that is well formed. -/
theorem asks_createCurrentJson (c : Collection) (initial : CurrentJson) :
    (createCurrentJson c initial).Asks G (fun _ => True) := by
  refine (asks_ofExcept fun _ h => h).bind fun json hjson => ?_
  have hself := assertCurrentJson_toJson_self hjson
  subst hself
  have hwf : json.WellFormed := (assertCurrentJson_toJson_iff _ _).mp hjson
  exact (asks_writeCurrent hG.routine (r := .createCurrent json) (hG.create json hwf)).bind
    fun _ _ => trivial

/-- **A read-modify-write** is admissible if its mutator keeps to its own fields and does not take
    the hint back; the two guards check the rest. -/
theorem asks_readModifyWrite {c : Collection} {pub : Publisher}
    {mutator : CurrentJson → Except Err (CurrentJson × α)}
    (hmut : ∀ before after x, before.WellFormed → mutator before = .ok (after, x) →
      after = pub.overlay before after ∧ before.tailHint ≤ after.tailHint) :
    (casUpdateCurrentJson c pub mutator).Asks G (fun _ => True) := by
  apply asks_casUpdateCurrentJson hG.routine
  intro before after x hwf hx hwf' hok
  obtain ⟨howns, hhint⟩ := hmut before after x hwf hx
  exact hG.replace pub before after (.of_assert hok howns hhint hwf'.start_le) hwf

/-- A claim publishes one transition and reads the rest. -/
theorem asks_claimWriter (c : Collection) (owner : JsString) :
    (claimWriter c owner).Asks G (fun _ => True) := by
  refine (asks_readCurrentJson hG.routine c).bind ?_
  rintro (_ | existing) hread
  · trivial
  · have hwf := hread existing rfl
    refine (asks_ofExcept fun _ h => h).bind fun u hok => ?_
    have hfirst : Transition .claim existing (existing.provisionalClaim owner) :=
      .of_assert hok rfl (Nat.le_refl _) hwf.start_le
    have hwf' := hfirst.wellFormed hwf
    refine (asks_writeCurrent hG.routine (hG.replace _ _ _ hfirst hwf)).bind ?_
    rintro (_ | date) _
    · trivial
    · refine (asks_ofExcept fun _ h => h).bind fun u' hok' => ?_
      have hsecond : Transition .claim (existing.provisionalClaim owner)
          ((existing.provisionalClaim owner).stampedClaim date) :=
        .of_assert hok' rfl (Nat.le_refl _) hwf'.start_le
      exact (asks_writeCurrent hG.routine (hG.replace _ _ _ hsecond hwf')).bind fun _ _ => trivial

/-- A refresh of the hint publishes one transition. -/
theorem asks_refreshTailHint (c : Collection) (nextSeq : Nat) (stampWarnedSeq : Bool) :
    (refreshTailHint c nextSeq stampWarnedSeq).Asks G (fun _ => True) := by
  refine Prog.Asks.tryCatch (Prog.Asks.bind (asks_readModifyWrite hG ?_)
    fun _ _ => trivial) fun _ => trivial
  intro before after x _ hx
  cases hx
  exact ⟨rfl, Nat.le_max_left _ _⟩

/-! ## Folding

The fold end is at most the discovered tail: a walk returns at most one entry for each slot of its
range, and the fold applies some of them.  So the published `log_seq_start` never passes the
published `tail_hint`, whatever the log holds. -/

/-- A log read is routine. -/
theorem asks_getLog (why : Purpose) (n : Nat) : (Task.getLog why n).Asks G (fun _ => True) :=
  asks_get (hG.routine _ trivial)

/-- Where a probe that started at `hint` ended. -/
def TailProbeChunk.bound : TailProbeChunk → Nat
  | .exact tail _ => tail
  | .atLeast bound _ => bound

/-- The probe only reads, and ends no lower than it started. -/
theorem asks_probeLoop (why : Purpose) : ∀ (cap seq : Nat) (acc : List LogEntry),
    (probeLoop why cap seq acc).Asks G (fun ch => seq ≤ ch.bound) := by
  intro cap
  induction cap with
  | zero => exact fun seq acc => Nat.le_refl seq
  | succ cap ih =>
    intro seq acc
    refine (asks_getLog hG why seq).bind ?_
    rintro (_ | entry) _
    · exact Nat.le_refl seq
    · refine (ih (seq + 1) (acc ++ [entry])).mono fun ch hch => ?_
      have hle : seq + 1 ≤ ch.bound := hch
      omega

/-- The tail a probe reports is not below its hint. -/
theorem asks_probeTailFrom (c : Collection) (why : Purpose) (hint : Nat) :
    (probeTailFrom c why hint).Asks G (fun r => hint ≤ r.1) := by
  refine (asks_probeLoop hG why logForwardProbeCap hint []).bind ?_
  rintro (⟨tail, entries⟩ | ⟨bound, entries⟩) hle
  · exact hle
  · trivial

/-- Reading one entry is routine. -/
theorem asks_readLogEntry (c : Collection) (why : Purpose) (n : Nat) :
    (readLogEntry c why n).Asks G (fun _ => True) := by
  refine (asks_getLog hG why n).bind ?_
  rintro (_ | entry) _
  · trivial
  · trivial

/-- A chunk of a walk brings at most one entry for each slot. -/
theorem asks_walkChunk (c : Collection) (why : Purpose) (seqs : List Nat) :
    (walkChunk c why seqs).Asks G (fun es => es.length ≤ seqs.length) :=
  (asks_all hG.routine (asks_readLogEntry hG c why) seqs).bind fun _ _ =>
    List.length_filterMap_le _ _

/-- So does the loop over the chunks. -/
theorem asks_walkLoop (c : Collection) (why : Purpose) : ∀ fuel seq stop : Nat,
    (walkLoop c why fuel seq stop).Asks G (fun es => es.length ≤ stop - seq) := by
  intro fuel
  induction fuel with
  | zero => exact fun seq stop => Nat.zero_le _
  | succ fuel ih =>
    intro seq stop
    show Prog.Asks G _ (if _ then _ else _)
    split
    · exact Nat.zero_le _
    next hlt =>
      refine (asks_walkChunk hG c why _).bind fun chunk hchunk => ?_
      refine (ih _ stop).bind fun rest hrest => ?_
      show (chunk ++ rest).length ≤ stop - seq
      rw [List.length_range'] at hchunk
      rw [List.length_append]
      omega

/-- A walk brings at most as many entries as its range has slots. -/
theorem asks_walkLogRange (c : Collection) (why : Purpose) (fromSeq stop : Nat) :
    (walkLogRange c why fromSeq stop).Asks G (fun es => es.length ≤ stop - fromSeq) :=
  asks_walkLoop hG c why _ fromSeq stop

/-- Loading the snapshot only reads. -/
theorem asks_loadBase (codec : Codec) (c : Collection) (current : CurrentJson) :
    (loadBase codec c current).Asks G (fun _ => True) := by
  unfold loadBase
  cases current.snapshot with
  | none => trivial
  | some key =>
    refine Prog.Asks.bind (p := Task.getSnapshot key) (asks_get (hG.routine _ trivial)) ?_
    rintro (_ | body) _
    · trivial
    · exact asks_ofExcept fun _ _ => trivial

/-- Publishing asks for the CAS of the transition it was given. -/
theorem asks_publish {pub : Publisher} {before after : CurrentJson}
    (h : Transition pub before after) (hwf : before.WellFormed) :
    (publish pub before after).Asks G (fun _ => True) := by
  have hwrite : (Task.write (.casCurrent pub before after)).Asks G (fun _ => True) :=
    asks_write hG.routine (hG.replace pub before after h hwf)
  refine hwrite.attempt.bind ?_
  rintro (e | date) _
  · show Prog.Asks G _ (if _ then _ else _)
    split
    · trivial
    · trivial
  · trivial

/-- The compactor's probe does not go back behind its floor. -/
theorem asks_compactProbe (c : Collection) (opts : CompactOptions) (probeFloor : Nat) :
    (compactProbe c opts probeFloor).Asks G (fun r => probeFloor ≤ r.1) := by
  unfold compactProbe
  cases opts.maxTailProbeGets with
  | none => exact (asks_probeTailFrom hG c .fold probeFloor).bind fun _ hle => hle
  | some cap =>
    refine (asks_probeLoop hG .fold cap probeFloor []).bind ?_
    rintro (⟨tail, entries⟩ | ⟨bound, entries⟩) hle
    · exact hle
    · exact hle

/-- A fold publishes a snapshot and one transition, provided its end is not past the tail it found.
    -/
theorem asks_compactPublish {codec : Codec} {c : Collection} {opts : CompactOptions}
    {current : CurrentJson} {discoveredTail : Nat} {base : Rows} {applied : Nat}
    {fetched : List LogEntry} (hwf : current.WellFormed)
    (hle : current.logSeqStart + applied ≤ discoveredTail) :
    (compactPublish codec c opts current discoveredTail base applied fetched).Asks G
      (fun _ => True) := by
  show Prog.Asks G _ (if _ then _ else _)
  split
  · trivial
  · refine (asks_ofExcept fun _ h => h).bind fun newKey _ => ?_
    refine (asks_write hG.routine (r := .putSnapshot _ _) (hG.routine _ trivial)).bind fun _ _ => ?_
    refine (asks_ofExcept fun _ h => h).bind fun u hok => ?_
    refine (asks_publish hG (.of_assert hok rfl (Nat.le_max_left _ _) ?_) hwf).bind ?_
    · exact Nat.le_trans hle (Nat.le_max_right _ _)
    · rintro (_ | _) _
      · trivial
      · trivial

/-- The fold loop keeps that proviso. -/
theorem asks_compactFold {codec : Codec} {c : Collection} {opts : CompactOptions}
    {current : CurrentJson} {discoveredTail : Nat} (hwf : current.WellFormed)
    (hle : current.logSeqStart ≤ discoveredTail) :
    (compactFold codec c opts current discoveredTail).Asks G (fun _ => True) := by
  refine (asks_loadBase hG codec c current).bind fun base _ => ?_
  refine (asks_walkLogRange hG c .fold _ _).bind fun fetched hlen => ?_
  obtain ⟨applied, happlied, hfold⟩ :=
    foldUpTo_eq c.collectionName opts.ceilingEntries base 0 fetched
  have hend : current.logSeqStart + (0 + applied) ≤ discoveredTail := by
    split at hlen
    · omega
    · omega
  rw [hfold]
  show Prog.Asks G _ (if _ then _ else _)
  split
  · trivial
  · exact asks_compactPublish hG hwf hend

/-- A whole `compact` publishes only what its transitions allow. -/
theorem asks_compact (codec : Codec) (c : Collection) (opts : CompactOptions) :
    (compact codec c opts).Asks G (fun _ => True) := by
  unfold compact
  split
  · trivial
  · refine (asks_readCurrentJson hG.routine c).bind ?_
    rintro (_ | current) hread
    · trivial
    · have hwf := hread current rfl
      refine (asks_compactProbe hG c opts _).bind ?_
      rintro ⟨discoveredTail, tailIsExact⟩ hprobe
      have hle : current.logSeqStart ≤ discoveredTail := by
        have hle' : max (max current.logSeqStart current.tailHint) (opts.knownTail.getD 0) ≤
            discoveredTail := hprobe
        omega
      show Prog.Asks G _ (if _ then _ else _)
      split
      · show Prog.Asks G _ (if _ then _ else _)
        split
        · trivial
        · refine (asks_ofExcept fun _ h => h).bind fun u hok => ?_
          refine (asks_publish hG (.of_assert hok rfl (Nat.le_max_left _ _) ?_) hwf).bind ?_
          · exact Nat.le_trans hwf.start_le (Nat.le_max_left _ _)
          · rintro (_ | _) _
            · trivial
            · trivial
      · exact asks_compactFold hG hwf hle

/-! ## Everybody else

The other calls write no manifest, or only the zero state of a collection that has none. -/

/-- Looking whether a slot is taken is routine. -/
theorem asks_slotExists (n : Nat) : (slotExists n).Asks G (fun _ => True) :=
  (asks_getLog hG _ n).bind fun _ _ => trivial

theorem asks_bisect : ∀ fuel lo hi : Nat, (bisect fuel lo hi).Asks G (fun _ => True) := by
  intro fuel
  induction fuel with
  | zero => exact fun _ _ => trivial
  | succ fuel ih =>
    intro lo hi
    rw [bisect]
    split
    · trivial
    · refine (asks_slotExists hG _).bind ?_
      rintro (_ | _) _
      · exact ih _ _
      · exact ih _ _

/-- The galloping search only reads. -/
theorem asks_gallop (c : Collection) (hint : Nat) :
    ∀ fuel lo step : Nat, (gallop c hint fuel lo step).Asks G (fun _ => True) := by
  intro fuel
  induction fuel with
  | zero => exact fun _ _ => trivial
  | succ fuel ih =>
    intro lo step
    refine (asks_slotExists hG _).bind ?_
    rintro (_ | _) _
    · exact asks_bisect hG _ _ _
    · show Prog.Asks G _ (if logForwardProbeCap < step * 2 then _ else _)
      split
      · trivial
      · exact ih _ _

/-- So does the search for the tail. -/
theorem asks_findLogTail (c : Collection) (hint : Nat) :
    (findLogTail c hint).Asks G (fun _ => True) := by
  refine (asks_slotExists hG hint).bind ?_
  rintro (_ | _) _
  · trivial
  · exact asks_gallop hG c hint _ _ _

/-- A commit that finds no manifest creates the zero manifest. -/
theorem asks_readOrProvision (c : Collection) : (readOrProvision c).Asks G (fun _ => True) := by
  refine (asks_readCurrentJson hG.routine c).bind ?_
  rintro (_ | current) _
  · refine ⟨hG.routine .mintGeneration trivial, fun generation => ?_⟩
    refine (asks_createCurrentJson hG c _).attempt.bind ?_
    rintro (e | created) _
    · show Prog.Asks G _ (if _ then _ else _)
      split
      · trivial
      · refine (asks_readCurrentJson hG.routine c).bind ?_
        rintro (_ | recovered) _
        · trivial
        · trivial
    · trivial
  · trivial

/-- The walk back through folded entries only reads. -/
theorem asks_foldedLoop (c : Collection) (fromSeq logSeqStart : Nat) :
    ∀ fuel chunk : Nat, (foldedLoop c fromSeq logSeqStart fuel chunk).Asks G (fun _ => True) := by
  intro fuel
  induction fuel with
  | zero => exact fun _ => trivial
  | succ fuel ih =>
    intro chunk
    rw [foldedLoop]
    split
    · trivial
    · have hchunk : ∀ seqs, (foldedChunk c fromSeq logSeqStart seqs).Asks G (fun _ => True) :=
        fun seqs => (asks_all hG.routine (asks_getLog hG _) seqs).bind fun _ _ =>
          asks_ofExcept fun _ _ => trivial
      exact (hchunk _).bind fun _ _ => (ih _).bind fun _ _ => trivial

/-- So does the insert's look at what was folded since its fold. -/
theorem asks_readFoldedInsertWindow (c : Collection) (fromSeq logSeqStart : Nat) :
    (readFoldedInsertWindow c fromSeq logSeqStart).Asks G (fun _ => True) := by
  unfold readFoldedInsertWindow
  split
  · trivial
  · split
    · trivial
    · exact asks_foldedLoop hG c fromSeq logSeqStart _ _

/-- Settling a marker write waits and sends nothing more. -/
theorem asks_settleMarker (id : Nat) : (settleMarker (Task.outcome id)).Asks G (fun _ => True) := by
  refine (asks_outcome hG.routine id).attempt.bind ?_
  rintro (e | date) _
  · show Prog.Asks G _ (if _ then _ else _)
    split
    · trivial
    · trivial
  · trivial

/-- A commit's markers are those of its own index keys. -/
theorem asks_putMarkers {cfg : WriterConfig} {input : CommitInput}
    (hmarker : ∀ body keys, cfg.allIndexKeysFor body input.docId = .ok keys →
      ∀ key ∈ keys, G (.send (.createMarker key))) :
    (putMarkers cfg input).Asks G (fun _ => True) := by
  unfold putMarkers
  split
  · trivial
  · refine (asks_ofExcept fun _ h => h).bind fun newKeys hkeys => ?_
    dsimp only
    split
    · refine Prog.Asks.bind (asks_writeAll hG.routine (asks_settleMarker hG) ?_) fun _ _ => trivial
      intro r hr
      obtain ⟨key, hkey, rfl⟩ := List.mem_map.mp hr
      exact hmarker _ _ hkeys key hkey
    · refine Prog.Asks.bind (asks_sendAll ?_) fun _ _ => asks_check.bind fun _ _ => trivial
      intro r hr
      obtain ⟨key, hkey, rfl⟩ := List.mem_map.mp hr
      exact hmarker _ _ hkeys key (List.takeWhile_subset _ hkey)

/-- Moving on to the next slot only reads. -/
theorem asks_nextSlot (c : Collection) (input : CommitInput) (window : List LogEntry)
    (seq : Nat) (occupant : LogEntry) :
    (nextSlot c input window seq occupant).Asks G (fun _ => True) := by
  unfold nextSlot
  cases input.insertGuard with
  | none => exact (asks_findLogTail hG c _).bind fun _ _ => trivial
  | some guard =>
    refine (asks_probeTailFrom hG c .guard _).bind ?_
    rintro ⟨tail, entries⟩ _
    refine (asks_ofExcept fun _ _ => trivial).bind ?_
    rintro (_ | replayed) _
    · trivial
    · trivial

/-- One attempt creates the entry minted for its slot. -/
theorem asks_createStep {c : Collection} {session commitNowMs : Nat} {input : CommitInput}
    {seq : Nat} {lost : LogEntry → Task CreateOutcome} (hlost : ∀ e, (lost e).Asks G (fun _ => True))
    (hentry : ∀ seq guarded,
      G (.send (.createLog seq (mintEntry session commitNowMs input seq) guarded))) :
    (createStep c session commitNowMs input seq lost).Asks G (fun _ => True) := by
  refine (asks_ofExcept fun _ _ => trivial).bind fun _ _ => ?_
  refine (asks_write hG.routine (r := .createLog _ _ _) (hentry _ _)).attempt.bind ?_
  rintro (e | date) _
  · show Prog.Asks G _ (if _ then _ else _)
    split
    · trivial
    · have hread : (readLogOccupant c input.insertGuard.isSome seq).Asks G (fun _ => True) := by
        refine (asks_getLog hG _ seq).bind ?_
        rintro (_ | existing) _
        · trivial
        · trivial
      refine hread.attempt.bind ?_
      rintro (e' | occupant) _
      · trivial
      · show Prog.Asks G _ (if _ then _ else _)
        split
        · trivial
        · exact hlost occupant
  · trivial

/-- So do all attempts, each for its own slot. -/
theorem asks_createLoop (c : Collection) {session commitNowMs : Nat} {input : CommitInput}
    (hentry : ∀ seq guarded,
      G (.send (.createLog seq (mintEntry session commitNowMs input seq) guarded))) :
    ∀ (probes : Nat) (window : List LogEntry) (seq : Nat),
      (createLoop c session commitNowMs input probes window seq).Asks G (fun _ => True) := by
  intro probes
  induction probes with
  | zero => exact fun _ _ => asks_createStep hG (fun _ => trivial) hentry
  | succ probes ih =>
    intro window seq
    refine asks_createStep hG (fun occupant => ?_) hentry
    refine (asks_nextSlot hG c input window seq occupant).bind ?_
    rintro (replayed | ⟨next, window'⟩) _
    · trivial
    · exact ih window' next

/-- The floor check only reads. -/
theorem asks_assertCommitAboveDeleteFloor (c : Collection) (seq : Nat) (docId : JsString) :
    (assertCommitAboveDeleteFloor c seq docId).Asks G (fun _ => True) := by
  refine (asks_readCurrentJson hG.routine c).attempt.bind ?_
  intro r _
  split
  · trivial
  · trivial
  · trivial
  · show Prog.Asks G _ (if _ then _ else _)
    split
    · trivial
    · exact (asks_write hG.routine (r := .deleteLog _) (hG.routine _ trivial)).attempt.bind
        fun _ _ => trivial

/-- The search for the row before the commit only reads. -/
theorem asks_readPreImage (collection docId : JsString) :
    ∀ budget seq : Nat, (readPreImage collection docId budget seq).Asks G (fun _ => True) := by
  intro budget
  induction budget with
  | zero => exact fun _ => trivial
  | succ budget ih =>
    intro seq
    cases seq with
    | zero => trivial
    | succ seq =>
      refine (asks_getLog hG .preImage seq).bind ?_
      rintro (_ | entry) _
      · exact ih seq
      · show Prog.Asks G _ (if _ then _ else _)
        split
        · exact ih seq
        · show Prog.Asks G _ (if _ then _ else _)
          split
          · trivial
          · cases entry.after with
            | none => exact ih seq
            | some doc => trivial

/-- A key that cleanup may delete: one of the document, of an update or a delete, and not one of
    the value an update leaves. -/
structure StaleKey (cfg : WriterConfig) (input : CommitInput) (key : Key) : Prop where
  ofDoc : ∃ body keys, cfg.allIndexKeysFor body input.docId = .ok keys ∧ key ∈ keys
  notInsert : input.op ≠ .I
  dropped : input.op = .U → ∃ newKeys, cfg.allIndexKeysFor input.body input.docId = .ok newKeys ∧
    key ∉ newKeys

/-- The keys found stale are keys of the document that the new row does not have. -/
theorem asks_staleIndexKeys (cfg : WriterConfig) (input : CommitInput) (seq : Nat) :
    (staleIndexKeys cfg input seq).Asks G (fun staleKeys =>
      ∀ key ∈ staleKeys, StaleKey cfg input key) := by
  unfold staleIndexKeys
  split
  next => exact fun key hkey => absurd hkey List.not_mem_nil
  next hop =>
    refine (asks_readPreImage hG _ _ _ _).bind fun preImage _ => ?_
    refine (asks_ofExcept fun _ h => h).bind fun oldKeys hold => ?_
    refine (asks_ofExcept fun _ h => h).bind fun newKeys hnew => ?_
    intro key hkey
    obtain ⟨hmem, hno⟩ := List.mem_filter.mp hkey
    refine ⟨⟨preImage, oldKeys, hold, hmem⟩, by rw [hop]; decide, fun _ => ⟨newKeys, hnew, ?_⟩⟩
    simpa using hno
  next hop =>
    refine (asks_readPreImage hG _ _ _ _).bind fun preImage _ => asks_ofExcept ?_
    intro keys hkeys key hkey
    refine ⟨⟨preImage, keys, hkeys, hkey⟩, by rw [hop]; decide, fun hupdate => ?_⟩
    rw [hop] at hupdate
    cases hupdate

/-- The cleanup deletes no other markers than those. -/
theorem asks_cleanup {cfg : WriterConfig} {input : CommitInput} (seq : Nat)
    (hstale : ∀ key, StaleKey cfg input key → G (.send (.deleteMarker key))) :
    (cleanupStaleIndexKeysBestEffort cfg input seq).Asks G (fun _ => True) := by
  unfold cleanupStaleIndexKeysBestEffort
  split
  · trivial
  · refine (asks_staleIndexKeys hG cfg input seq).attempt.bind ?_
    rintro (e | staleKeys) hkeys
    · trivial
    · refine Prog.Asks.bind (asks_writeAll hG.routine ?_ ?_) fun _ _ => trivial
      · intro id
        exact (asks_outcome hG.routine id).attempt.bind fun _ _ => trivial
      · intro r hr
        obtain ⟨key, hkey, rfl⟩ := List.mem_map.mp hr
        exact hstale key (hkeys staleKeys rfl key hkey)

/-- Finding the slot to try first only reads. -/
theorem asks_findSlot (c : Collection) (input : CommitInput) (current : CurrentJson) :
    (findSlot c input current).Asks G (fun _ => True) := by
  unfold findSlot
  cases input.insertGuard with
  | none => exact (asks_findLogTail hG c _).bind fun _ _ => trivial
  | some guard =>
    refine (asks_readFoldedInsertWindow hG c _ _).bind fun folded _ => ?_
    refine (asks_probeTailFrom hG c .guard _).bind ?_
    rintro ⟨tail, entries⟩ _
    refine (asks_ofExcept fun _ _ => trivial).bind ?_
    rintro (_ | replayed) _
    · trivial
    · trivial

/-- A walk of the log before an update only reads. -/
theorem asks_walkLog (cfg : WriterConfig) (c : Collection) (current : CurrentJson) :
    (walkLog cfg c current).Asks G (fun _ => True) := by
  unfold walkLog
  split
  · exact (asks_walkLogRange hG c .tailFind _ _).bind fun _ _ => trivial
  · trivial

/-- The class has the writes of a commit: the markers of its document, and its entry. -/
structure AdmitsCommit (G : Op → Prop) (cfg : WriterConfig) (session : Nat) (input : CommitInput) :
    Prop where
  put : ∀ body keys, cfg.allIndexKeysFor body input.docId = .ok keys →
    ∀ key ∈ keys, G (.send (.createMarker key))
  entry : ∀ ms seq guarded, G (.send (.createLog seq (mintEntry session ms input seq) guarded))
  drop : ∀ key, StaleKey cfg input key → G (.send (.deleteMarker key))

/-- The commits a call can make. -/
inductive Call.Commits (c : Collection) : Call → WriterConfig → CommitInput → Prop where
  | commit {cfg : WriterConfig} {input : CommitInput} : Call.Commits c (.commit cfg input) cfg input
  | insert {ctx : InsertContext} {members : List (JsString × Doc)} {uuidv7 : JsString}
      {mintedId : Option JsString} {tail : Nat} :
      Call.Commits c (.insert ctx members uuidv7 mintedId) ctx.writer
        (insertInput c (resolveId members uuidv7)
          (.obj (spreadId members (resolveId members uuidv7))) tail mintedId.isSome)

/-- **What a commit asks for**: its markers, its entry in one slot after another, and the DELETEs of
    stale markers. -/
theorem asks_commit {cfg : WriterConfig} (c : Collection) {session : Nat} {input : CommitInput}
    (hcommit : input.precheck cfg = .ok () → AdmitsCommit G cfg session input) :
    (commit cfg c session input).Asks G (fun _ => True) := by
  refine (asks_ofExcept fun _ h => h).bind fun u hpre => ?_
  have hown := hcommit hpre
  refine (asks_readOrProvision hG c).bind fun current _ => ?_
  refine (asks_walkLog hG cfg c current).bind fun _ _ => (asks_findSlot hG c input current).bind ?_
  rintro (replayed | ⟨seq, window⟩) _
  · trivial
  · refine ⟨hG.routine .now trivial, fun commitNowMs => ?_⟩
    refine (asks_putMarkers hG hown.put).bind fun markers _ => ?_
    refine (asks_createLoop hG c (hown.entry _) _ window seq).bind ?_
    rintro (entry | entry) _
    · refine (asks_assertCommitAboveDeleteFloor hG c _ _).bind fun checked _ => ?_
      exact (asks_cleanup hG _ hown.drop).bind fun _ _ => trivial
    · trivial

/-- A scan only reads. -/
theorem asks_runReadRows (codec : Codec) (c : Collection) (why : Purpose)
    (state : QueryState) : (runReadRows codec c why state).Asks G (fun _ => True) := by
  refine (asks_readCurrentJson hG.routine c).bind ?_
  rintro (_ | head) _
  · trivial
  · refine (asks_loadBase hG codec c head).bind fun baseDocs _ => ?_
    refine (asks_walkLogRange hG c why _ _).bind fun entries _ => ?_
    refine (asks_probeTailFrom hG c why _).bind ?_
    rintro ⟨tail, probed⟩ _
    exact (asks_ofExcept fun _ _ => trivial).bind fun _ _ => trivial

/-- An insert asks for what its commit does. -/
theorem asks_runInsertOutcome (codec : Codec) (c : Collection) {session : Nat}
    {ctx : InsertContext} {members : List (JsString × Doc)} {uuidv7 : JsString}
    {mintedId : Option JsString}
    (hcommit : ∀ cfg input, (Call.insert ctx members uuidv7 mintedId).Commits c cfg input →
      input.precheck cfg = .ok () → AdmitsCommit G cfg session input) :
    (runInsertOutcome codec c session ctx members uuidv7 mintedId).Asks G (fun _ => True) := by
  refine (asks_ofExcept fun _ _ => trivial).bind fun _ _ => ?_
  split
  · trivial
  · dsimp only
    split
    · trivial
    · refine (asks_runReadRows hG codec c .check _).bind fun existing _ => ?_
      cases existing.rows.head? with
      | some live =>
        show Prog.Asks G _ (if _ then _ else _)
        split
        · trivial
        · trivial
      | none =>
        dsimp only
        split
        · trivial
        · exact (asks_commit hG c (hcommit _ _ .insert)).bind fun _ _ => trivial

/-- Fetching the events of a poll only reads. -/
theorem asks_fetchEvents (current : CurrentJson) :
    ∀ count seq : Nat, (fetchEvents current count seq).Asks G (fun _ => True) := by
  intro count
  induction count with
  | zero => exact fun _ => trivial
  | succ count ih =>
    intro seq
    have hget : (getLogEntry seq current).Asks G (fun _ => True) :=
      (asks_ofExcept fun _ _ => trivial).bind fun _ _ => asks_getLog hG _ _
    refine hget.bind fun got _ => (ih (seq + 1)).bind fun rest _ => ?_
    cases got with
    | none => trivial
    | some entry => trivial

/-- So does a poll. -/
theorem asks_pollOnce (c : Collection) (cursor : Cursor) :
    (pollOnce c cursor).Asks G (fun _ => True) := by
  refine (asks_ofExcept fun _ _ => trivial).bind fun _ _ => ?_
  refine (asks_readCurrentJson hG.routine c).bind ?_
  rintro (_ | json) _
  · trivial
  · have hprobe : (probeLogTail c (max json.logSeqStart json.tailHint) json).Asks G (fun _ => True) :=
      (asks_ofExcept fun _ _ => trivial).bind fun _ _ =>
        (asks_probeTailFrom hG c .feedTail _).bind fun _ _ => trivial
    refine hprobe.bind fun tail _ => ?_
    refine (asks_ofExcept fun _ _ => trivial).bind fun startSeq _ => ?_
    exact (asks_fetchEvents hG json _ _).bind fun _ _ => trivial

/-- And the polls of a long poll, one for each tick. -/
theorem asks_tickLoop (c : Collection) (cursor : Cursor) (deadline : Nat) :
    ∀ (ticks : Nat) (polls : List Polled),
      (tickLoop c cursor deadline ticks polls).Asks G (fun _ => True) := by
  intro ticks
  induction ticks with
  | zero => exact fun _ => trivial
  | succ ticks ih =>
    intro polls
    refine ⟨hG.routine .aborted trivial, ?_⟩
    rintro (_ | _)
    · refine (asks_pollOnce hG c cursor).bind fun polled _ => ?_
      show Prog.Asks G _ (if _ then _ else _)
      split
      · trivial
      · refine ⟨hG.routine .now trivial, fun now => ?_⟩
        show Prog.Asks G _ (if _ then _ else _)
        split
        · trivial
        · exact ih _
    · trivial

/-- And a subscription, one long poll after another. -/
theorem asks_subscribe (c : Collection) (timeoutMs ticks : Nat) :
    ∀ (calls : Nat) (cursor : Cursor),
      (subscribe c timeoutMs ticks calls cursor).Asks G (fun _ => True) := by
  intro calls
  induction calls with
  | zero => exact fun _ => trivial
  | succ calls ih =>
    intro cursor
    have hlong : (longPollSince c timeoutMs ticks cursor).Asks G (fun _ => True) := by
      refine (asks_ofExcept fun _ _ => trivial).bind fun _ _ => ?_
      refine (asks_pollOnce hG c cursor).bind fun initial _ => ?_
      show Prog.Asks G _ (if _ then _ else _)
      split
      · trivial
      · exact ⟨hG.routine .now trivial, fun start => asks_tickLoop hG c cursor _ ticks _⟩
    exact hlong.bind fun res _ => (ih res.next).bind fun _ _ => trivial

/-- **What a call asks for**: routine requests, manifest writes the guards let through, and the
    writes of its commits. -/
theorem asks_body (codec : Codec) (c : Collection) {t : Nat} {call : Call}
    (hcommit : ∀ cfg input, call.Commits c cfg input → input.precheck cfg = .ok () →
      AdmitsCommit G cfg t input) : (body codec c t call).Asks G (fun _ => True) := by
  cases call with
  | commit cfg input => exact asks_commit hG c (hcommit cfg input .commit)
  | insert ctx members uuidv7 mintedId => exact asks_runInsertOutcome hG codec c hcommit
  | read state => exact asks_runReadRows hG codec c .scan state
  | subscribe timeoutMs ticks calls cursor => exact asks_subscribe hG c timeoutMs ticks calls cursor
  | create initial => exact asks_createCurrentJson hG c initial
  | compact opts => exact asks_compact hG codec c opts
  | refresh nextSeq stampWarnedSeq => exact asks_refreshTailHint hG c nextSeq stampWarnedSeq
  | retire opts => exact asks_retireLogRange hG.routine c opts (hG.replace .retire)
  | claim owner => exact asks_claimWriter hG c owner
  | gc opts => exact asks_runGc hG.routine c opts

end Calls

end Baerly
