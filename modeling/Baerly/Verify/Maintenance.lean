import Baerly.Maintenance
import Baerly.Verify.CompactFold
import Baerly.Verify.Requests

/-
  The lag of `tail_hint` behind the tail.

  PROGRAM: commits follow each other, each with its tick; any phase of a tick may end any way.

  SPEC (`tail_hint_lag_bounded`): after every commit the hint is less than a refresh interval and a GC
  interval behind, and no tick publishes it twice.

  CRUX: nothing ever takes the hint back (`HintAtLeast`), and a tick that ends with the flag unset has
  found the gap small (`TickInv.settled`).  The lag is kept below the refresh interval plus the
  commits since the last GC boundary.
-/

namespace Baerly

open Async

/-! ## Publications -/

/-- A manifest write that stamps `tail_hint`. -/
def Req.stampsHint : Req → Bool
  | .casCurrent .fold _ _ => true
  | .casCurrent .checkpoint _ _ => true
  | .casCurrent .refresh _ _ => true
  | _ => false

/-- How many writes of the hint the store has applied. -/
def hintPublications (w : World) : Nat :=
  w.net.countP fun msg => msg.applied && msg.req.stampsHint

/-- The manifest is there, with a hint of at least `h`. -/
def HintAtLeast (h : Nat) (w : World) : Prop :=
  ∃ m, w.cur = some m ∧ h ≤ m.tailHint

/-- A manifest with a hint of at least `h`, and `n` writes of the hint so far. -/
def HintKept (h n : Nat) (w : World) : Prop :=
  HintAtLeast h w ∧ hintPublications w = n

theorem HintAtLeast.mono {h h' : Nat} {w : World} (hw : HintAtLeast h w) (hle : h' ≤ h) :
    HintAtLeast h' w := by
  obtain ⟨m, hm, hm'⟩ := hw
  exact ⟨m, hm, Nat.le_trans hle hm'⟩

theorem hintPublications_sent (w : World) (r : Req) (applied : Bool) :
    hintPublications (w.sent r applied) =
      hintPublications w + if applied && r.stampsHint then 1 else 0 := by
  show (w.net ++ [_]).countP _ = _
  rw [List.countP_append, List.countP_singleton]
  rfl

theorem hintPublications_applied {w w₁ : World} {r : Req} (h : applyReq w r = some w₁) :
    hintPublications w₁ = hintPublications w := by
  unfold hintPublications
  rw [applyReq_net h]

/-! ## Housekeeping -/

/-- Requests that leave the hint alone: no manifest write, or that of a retirement. -/
def Op.Housekeeping : Op → Prop
  | .send (.createCurrent _) => False
  | .send (.casCurrent pub before after) => pub = .retire ∧ before.tailHint ≤ after.tailHint
  | _ => True

theorem housekeeping_of_spares (op : Op) (h : op.SparesManifest) : op.Housekeeping := by
  cases op with
  | send r =>
    cases r with
    | createCurrent m => exact h
    | casCurrent pub before after => exact h.elim
    | _ => trivial
  | _ => trivial

/-- **Housekeeping takes no hint back and publishes none.** -/
theorem housekeeping_keeps {h n : Nat} {r : Req} {w : World} (hr : (Op.send r).Housekeeping)
    (hw : HintKept h n w) :
    HintKept h n (w.sent r false) ∧
      ∀ w₁, applyReq w r = some w₁ → HintKept h n (w₁.sent r true) := by
  obtain ⟨hhint, hcount⟩ := hw
  have hquiet : r.stampsHint = false := by
    cases r with
    | casCurrent pub before after =>
      obtain ⟨rfl, -⟩ := hr
      rfl
    | _ => rfl
  refine ⟨⟨hhint, ?_⟩, fun w₁ happly => ⟨?_, ?_⟩⟩
  · rw [hintPublications_sent, hcount]
    rfl
  · obtain ⟨m, hm, hle⟩ := hhint
    cases r with
    | createCurrent m => exact hr.elim
    | casCurrent pub before after =>
      rw [applyReq] at happly
      split at happly
      next hcur =>
        cases happly
        rw [hm] at hcur
        cases hcur
        exact ⟨after, rfl, Nat.le_trans hle hr.2⟩
      next => cases happly
    | _ => exact ⟨m, (applyReq_cur rfl happly).trans hm, hle⟩
  · rw [hintPublications_sent, hintPublications_applied happly, hcount, hquiet]
    rfl

section Phases

variable {codec : Codec} {c : Collection} {w : World} {h n : Nat}

theorem wp_runGc_alone (opts : RunGcOptions) (hw : HintKept h n w) :
    (still codec c).wp 0 (runGc c opts)
      (fun _ w' => HintKept h n w') w := by
  have hasks := asks_runGc (fun op h => housekeeping_of_spares op h.spares) c opts
  exact Protocol.wp_mono (wp_of_asks hasks (fun _ _ hr hw => housekeeping_keeps hr hw) hw)
    fun r w' hr => hr.1

theorem wp_retireLogRange_alone (opts : RetireOptions)
    (hw : HintKept h n w) :
    (still codec c).wp 0 (retireLogRange c opts)
      (fun _ w' => HintKept h n w') w := by
  have hasks := asks_retireLogRange (fun op h => housekeeping_of_spares op h.spares) c opts
    fun before after htr _ => ⟨rfl, htr.hint_mono⟩
  exact Protocol.wp_mono (wp_of_asks hasks (fun _ _ hr hw => housekeeping_keeps hr hw) hw)
    fun r w' hr => hr.1

/-! ## The fold -/

/-- What a fold leaves: a new snapshot with the known tail published, or no publication. -/
def FoldPost (h n known : Nat) (r : Except Err CompactResult) (w' : World) : Prop :=
  HintAtLeast h w' ∧
    ((∃ result, r = .ok result ∧ result.written = true ∧ result.deferral = none ∧
        HintAtLeast known w' ∧ hintPublications w' = n + 1) ∨
      ((∀ result, r = .ok result → result.written = false) ∧ hintPublications w' = n))

theorem FoldPost.skipped {known : Nat} {result : CompactResult} (hresult : result.written = false)
    (hw : HintKept h n w) : FoldPost h n known (.ok result) w :=
  ⟨hw.1, Or.inr ⟨fun result' hr => (by cases hr; exact hresult), hw.2⟩⟩

theorem FoldPost.failed {known : Nat} {e : Err}
    (hw : HintKept h n w) : FoldPost h n known (.error e) w :=
  ⟨hw.1, Or.inr ⟨fun result' hr => (by cases hr), hw.2⟩⟩

variable {opts : CompactOptions} {m : CurrentJson} {d : Nat}

theorem wp_compactPublish_hint {base : Rows} {applied : Nat} {fetched : List LogEntry}
    (hcur : w.cur = some m) (hle : h ≤ m.tailHint) (hcount : hintPublications w = n)
    (hknown : opts.knownTail.getD 0 ≤ d) :
    (still codec c).wp 0 (compactPublish codec c opts m d base applied fetched)
      (FoldPost h n (opts.knownTail.getD 0)) w := by
  have hw : HintKept h n w := ⟨⟨m, hcur, hle⟩, hcount⟩
  unfold compactPublish
  dsimp only
  split
  · exact .skipped rfl hw
  · refine wp_check_alone (fun newKey _ => ?_) fun e => .failed hw
    apply Protocol.wp_bind
    -- the write of the snapshot leaves the manifest and its publications alone
    have hput : ∀ w₁, applyReq w (.putSnapshot newKey
        ⟨0, m.logSeqStart + applied, c.collectionName, sortedDocs base⟩) = some w₁ →
        w₁.cur = some m ∧ hintPublications (w₁.sent (.putSnapshot newKey
          ⟨0, m.logSeqStart + applied, c.collectionName, sortedDocs base⟩) true) = n := by
      intro w₁ hw₁
      refine ⟨(applyReq_cur rfl hw₁).trans hcur, ?_⟩
      rw [hintPublications_sent, hintPublications_applied hw₁, hcount]
      rfl
    refine wp_write_alone (fun w₁ date hw₁ => ?_) (fun e => ?_) fun _ w₁ e hw₁ => ?_
    rotate_left
    · -- the snapshot was not written
      refine .failed ⟨hw.1, ?_⟩
      rw [hintPublications_sent, hcount]
      rfl
    · obtain ⟨hcur₁, hcount₁⟩ := hput w₁ hw₁
      exact .failed ⟨⟨m, hcur₁, hle⟩, hcount₁⟩
    obtain ⟨hcur₁, hcount₁⟩ := hput w₁ hw₁
    dsimp only
    refine wp_check_alone (fun _ _ => ?_) fun e => .failed ⟨⟨m, hcur₁, hle⟩, hcount₁⟩
    apply Protocol.wp_bind
    refine wp_publish_alone (show World.cur _ = some m from hcur₁) ?_ ?_ ?_
    · refine ⟨⟨_, rfl, Nat.le_trans hle (Nat.le_max_left _ _)⟩, Or.inl ⟨_, rfl, rfl, rfl,
        ⟨_, rfl, Nat.le_trans hknown (Nat.le_max_right _ _)⟩, ?_⟩⟩
      rw [hintPublications_sent]
      exact congrArg (· + 1) hcount₁
    · refine FoldPost.skipped rfl ⟨⟨m, hcur₁, hle⟩, ?_⟩
      rw [hintPublications_sent, hcount₁]
      rfl
    · refine fun e => FoldPost.failed ⟨⟨m, hcur₁, hle⟩, ?_⟩
      rw [hintPublications_sent, hcount₁]
      rfl

theorem wp_compactProbe_hint {floor : Nat} (hprobe : opts.maxTailProbeGets = none) :
    (still codec c).wp 0 (compactProbe c opts floor)
      (fun r w' => w' = w ∧ ∀ d exact, r = .ok (d, exact) → floor ≤ d ∧ exact = true) w := by
  unfold compactProbe
  rw [hprobe]
  refine Protocol.wp_seq (wp_probeTailFrom (readAlone codec c .fold) trivial) ?_ ?_
  · rintro ⟨tail, entries⟩ w₁ ⟨rfl, hres⟩
    obtain ⟨rfl, -, -⟩ := hres tail entries rfl
    refine ⟨rfl, fun d exact hd => ?_⟩
    cases hd
    exact ⟨Nat.le_add_right _ _, rfl⟩
  · rintro e w₁ ⟨rfl, -⟩
    exact ⟨rfl, fun d exact hd => (by cases hd)⟩

/-- **The fold of a tick**, whatever the log and the snapshots hold. -/
theorem wp_compact_hint (hprobe : opts.maxTailProbeGets = none) (hw : HintKept h n w) :
    (still codec c).wp 0 (compact codec c opts) (FoldPost h n (opts.knownTail.getD 0)) w := by
  obtain ⟨m, hcur, hle⟩ := hw.1
  unfold compact
  rw [if_neg (by rw [hprobe]; nofun)]
  refine Protocol.wp_bind (wp_readCurrentJson_alone ?_ fun e => FoldPost.failed hw)
  rw [hcur]
  dsimp only
  refine Protocol.wp_seq (wp_compactProbe_hint hprobe) ?_ ?_
  · rintro ⟨d, exact⟩ w₁ ⟨rfl, hres⟩
    obtain ⟨hd, rfl⟩ := hres d exact rfl
    dsimp only
    split
    · exact .skipped rfl hw
    · unfold compactFold
      refine Protocol.wp_seq wp_loadBase_alone ?_ ?_
      · rintro base w₂ ⟨rfl, -⟩
        refine Protocol.wp_seq (wp_walkLogRange (readAlone codec c .fold) trivial) ?_ ?_
        · rintro fetched w₃ ⟨rfl, -⟩
          dsimp only
          split
          · exact .skipped rfl hw
          · exact wp_compactPublish_hint hcur hle hw.2 (by omega)
        · rintro e w₃ ⟨rfl, -⟩
          exact .failed hw
      · rintro e w₂ ⟨rfl, -⟩
        exact .failed hw
  · rintro e w₁ ⟨rfl, -⟩
    exact .failed hw

/-! ## The refresh -/

/-- The publication of the tick's own: it lands with the new hint, or changes nothing. -/
theorem wp_stampTailHint_alone {nextSeq : Nat} {stampWarnedSeq : Bool} (hw : HintKept h n w) :
    (still codec c).wp 0 (casUpdateCurrentJson c .refresh (stampTailHint nextSeq stampWarnedSeq))
      (fun r w' => if r.toBool then HintAtLeast h w' ∧ HintAtLeast nextSeq w' ∧
        hintPublications w' = n + 1 else HintKept h n w') w := by
  obtain ⟨⟨m, hcur, hle⟩, hcount⟩ := hw
  have hfailed : ∀ e : Err, if (Except.error e : Except Err (CurrentJson × Unit)).toBool then
      HintAtLeast h w ∧ HintAtLeast nextSeq w ∧ hintPublications w = n + 1
      else HintKept h n w := fun e => ⟨⟨m, hcur, hle⟩, hcount⟩
  refine Protocol.wp_bind (wp_readCurrentJson_alone ?_ hfailed)
  rw [hcur]
  dsimp only
  refine wp_check_alone ?_ hfailed
  rintro ⟨next, u⟩ hnext
  cases hnext
  refine wp_check_alone (fun _ _ => ?_) hfailed
  refine wp_check_alone (fun _ _ => ?_) hfailed
  refine Protocol.wp_bind (Protocol.wp_tryCatch (wp_write_alone (fun w₁ date hw₁ => ?_)
    (fun e => ?_) fun h => (by cases h)))
  · rw [applyReq, if_pos hcur, Option.some.injEq] at hw₁
    subst hw₁
    refine ⟨⟨_, rfl, Nat.le_trans hle (Nat.le_max_left _ _)⟩, ⟨_, rfl, Nat.le_max_right _ _⟩, ?_⟩
    rw [hintPublications_sent]
    exact congrArg (· + 1) hcount
  · show HintKept h n _
    refine ⟨⟨m, hcur, hle⟩, ?_⟩
    rw [hintPublications_sent, hcount]
    rfl

/-- **The invariant of a tick**: the hint it read still stands; as long as the flag is unset nothing was
    published, and once it is set one write was, up to the tail unless it failed. -/
structure TickInv (t : Tick) (n : Nat) (s : TickState) (w : World) : Prop where
  hint : HintAtLeast t.current.tailHint w
  unset : s.tailHintPublished = false → hintPublications w = n ∧ s.refreshes = []
  set : s.tailHintPublished = true → hintPublications w ≤ n + 1 ∧
    (s.refreshes.all id = true → HintAtLeast t.nextSeq w)

variable {t : Tick} {s : TickState}

/-- Whatever keeps the hint and publishes nothing keeps the invariant. -/
theorem TickInv.keeps (hinv : TickInv t n s w) : ∃ k, HintKept k (hintPublications w) w ∧
    ∀ w', HintKept k (hintPublications w) w' → TickInv t n s w' := by
  obtain ⟨m, hcur, hle⟩ := hinv.hint
  refine ⟨m.tailHint, ⟨⟨m, hcur, Nat.le_refl _⟩, rfl⟩, fun w' hw' => ⟨hw'.1.mono hle, ?_, ?_⟩⟩
  · intro hflag
    rw [hw'.2]
    exact hinv.unset hflag
  · intro hflag
    obtain ⟨hcount, hhint⟩ := hinv.set hflag
    refine ⟨Nat.le_trans (Nat.le_of_eq hw'.2) hcount, fun hall => ?_⟩
    obtain ⟨m', hcur', hle'⟩ := hhint hall
    rw [hcur] at hcur'
    cases hcur'
    exact hw'.1.mono hle'

/-- The refresh, where it cannot be a second one. -/
theorem wp_refresh_alone {stampWarnedSeq : Bool} (hinv : TickInv t n s w)
    (hfirst : s.tailHintPublished = false ∨ stampWarnedSeq = false) :
    (still codec c).wp 0 (t.refreshTailHintIfNeeded c stampWarnedSeq s)
      (fun r w' => ∃ s', r = .ok s' ∧ TickInv t n s' w' ∧ (s'.tailHintPublished = true ∨
        t.nextSeq - t.current.tailHint < maintenanceTailHintRefreshWrites)) w := by
  unfold Tick.refreshTailHintIfNeeded
  split
  next hskip =>
    simp only [Bool.and_eq_true, Bool.not_eq_true', Bool.or_eq_true, decide_eq_true_iff] at hskip
    exact ⟨s, rfl, hinv, hskip.2⟩
  next hdue =>
    have hunset : s.tailHintPublished = false := by
      rcases hfirst with hunset | rfl
      · exact hunset
      · cases hflag : s.tailHintPublished with
        | false => rfl
        | true => exact absurd (by rw [hflag]; rfl) hdue
    obtain ⟨hcount, hempty⟩ := hinv.unset hunset
    refine Protocol.wp_attempt_bind (wp_stampTailHint_alone ⟨hinv.hint, hcount⟩) ?_
    intro r w' hr
    refine ⟨_, rfl, ?_, Or.inl rfl⟩
    rw [hempty]
    cases r with
    | ok published =>
      obtain ⟨hhint, htail, hcount'⟩ := hr
      exact ⟨hhint, nofun, fun _ => ⟨Nat.le_of_eq hcount', fun _ => htail⟩⟩
    | error e =>
      obtain ⟨hhint, hcount'⟩ : HintKept _ _ w' := hr
      exact ⟨hhint, nofun, fun _ => ⟨by omega, fun hall => absurd hall nofun⟩⟩

/-! ## The phases -/

/-- A phase ended, one way or the other, with the invariant in place. -/
def Phase (t : Tick) (n : Nat) (r : Except Err (Except Err Unit × TickState)) (w' : World) : Prop :=
  ∃ outcome s', r = .ok (outcome, s') ∧ TickInv t n s' w'

theorem wp_retireLogs_alone (hinv : TickInv t n s w) :
    (still codec c).wp 0 (t.retireLogs c s) (Phase t n) w := by
  obtain ⟨k, hkept, hkeeps⟩ := hinv.keeps
  refine Protocol.wp_attempt_bind (wp_retireLogRange_alone _ hkept) fun r w' hr => ?_
  cases r with
  | ok _ => exact ⟨_, _, rfl, hkeeps w' hr⟩
  | error e =>
    dsimp only
    split
    · exact ⟨_, _, rfl, hkeeps w' hr⟩
    · exact ⟨_, _, rfl, hkeeps w' hr⟩

theorem wp_gcAndRetire_alone (hinv : TickInv t n s w) :
    (still codec c).wp 0 (t.gcAndRetire c s) (Phase t n) w := by
  obtain ⟨k, hkept, hkeeps⟩ := hinv.keeps
  refine Protocol.wp_bind (Protocol.wp_attempt_bind (wp_runGc_alone _ hkept) fun r w₁ hr => ?_)
  cases r with
  | error e => exact ⟨_, _, rfl, hkeeps w₁ hr⟩
  | ok _ =>
    refine Protocol.wp_seq (wp_refresh_alone (hkeeps w₁ hr) (Or.inr rfl)) ?_ ?_
    · rintro s₁ w₂ ⟨s₂, hs, hinv₂, -⟩
      cases hs
      exact wp_retireLogs_alone hinv₂
    · rintro e w₂ ⟨s₂, hs, -⟩
      cases hs

theorem wp_gcStep_alone (hinv : TickInv t n s w) :
    (still codec c).wp 0 (t.gcStep c s) (Phase t n) w := by
  unfold Tick.gcStep
  split
  · exact wp_gcAndRetire_alone hinv
  · exact wp_retireLogs_alone hinv

/-- A deferral is signalled before anything was published. -/
theorem wp_signalFoldDeferred_alone {f : TickState → Task (Except Err Unit × TickState)}
    (hinv : TickInv t n s w) (hunset : s.tailHintPublished = false)
    (hf : ∀ s' w', TickInv t n s' w' → (still codec c).wp 0 (f s') (Phase t n) w') :
    (still codec c).wp 0 ((t.signalFoldDeferred c s).bind f) (Phase t n) w := by
  refine Protocol.wp_seq (wp_refresh_alone hinv (Or.inl hunset)) ?_ ?_
  · rintro s₁ w₁ ⟨s₂, hs, hinv₂, -⟩
    cases hs
    exact hf _ _ hinv₂
  · rintro e w₁ ⟨s₂, hs, -⟩
    cases hs

theorem wp_foldStep_alone (hinv : TickInv t n s w) (hunset : s.tailHintPublished = false) :
    (still codec c).wp 0 (t.foldStep codec c s) (Phase t n) w := by
  obtain ⟨hcount, hempty⟩ := hinv.unset hunset
  have hrest : ∀ s' w', TickInv t n s' w' → (still codec c).wp 0
      (if t.phasesPerTick = .single then Prog.ret (Except.ok (), s') else t.gcStep c s')
      (Phase t n) w' := by
    intro s' w' hinv'
    split
    · exact ⟨_, _, rfl, hinv'⟩
    · exact wp_gcStep_alone hinv'
  have hprobe : t.compactOptions.maxTailProbeGets = none := rfl
  refine Protocol.wp_attempt_bind (wp_compact_hint hprobe ⟨hinv.hint, hcount⟩) fun r w' hr => ?_
  obtain ⟨hhint, ⟨result, rfl, hwritten, hdeferral, htail, hcount'⟩ | ⟨hnot, hcount'⟩⟩ := hr
  · -- the fold has published the hint
    dsimp only
    rw [hwritten, hdeferral]
    refine hrest _ w' ⟨hhint, nofun, fun _ => ⟨Nat.le_of_eq hcount', fun _ => htail⟩⟩
  · have hinv' : TickInv t n s w' :=
      ⟨hhint, fun _ => ⟨hcount', hempty⟩, fun hset => absurd (hunset.symm.trans hset) nofun⟩
    cases r with
    | error e => exact ⟨_, _, rfl, hinv'⟩
    | ok result =>
      dsimp only
      rw [hnot result rfl]
      cases result.deferral with
      | none => exact hrest s w' hinv'
      | some deferral => exact wp_signalFoldDeferred_alone hinv' hunset hrest

/-- **The phases of a tick**, with any outcome. -/
theorem wp_phases_alone (hinv : TickInv t n s w) (hunset : s.tailHintPublished = false) :
    (still codec c).wp 0 (t.phases codec c s) (Phase t n) w := by
  unfold Tick.phases
  split
  · refine Protocol.wp_seq (wp_refresh_alone hinv (Or.inl hunset)) ?_ ?_
    · rintro s₁ w₁ ⟨s₂, hs, hinv₂, -⟩
      cases hs
      exact ⟨_, _, rfl, hinv₂⟩
    · rintro e w₁ ⟨s₂, hs, -⟩
      cases hs
  · split
    · exact wp_gcAndRetire_alone hinv
    · split
      · split
        · exact wp_foldStep_alone hinv hunset
        · exact wp_signalFoldDeferred_alone hinv hunset fun s' w' hinv' => wp_gcStep_alone hinv'
      · exact wp_gcStep_alone hinv

/-! ## A tick -/

theorem wp_tickTail_alone {current : CurrentJson} (observedTail : Option Nat) :
    (still codec c).wp 0 (tickTail c current observedTail) (fun r w' => w' = w ∧
      ∀ nextSeq, r = .ok nextSeq → ∀ observed, observedTail = some observed → observed ≤ nextSeq)
      w := by
  cases observedTail with
  | some observed =>
    refine ⟨rfl, fun nextSeq hr observed' hobserved => ?_⟩
    cases hr
    cases hobserved
    exact Nat.le_max_left _ _
  | none =>
    refine Protocol.wp_seq (wp_probeTailFrom (readAlone codec c .fold) trivial) ?_ ?_
    · rintro ⟨tail, entries⟩ w₁ ⟨rfl, -⟩
      exact ⟨rfl, fun _ _ _ h => (by cases h)⟩
    · rintro e w₁ ⟨rfl, -⟩
      exact ⟨rfl, fun _ h => (by cases h)⟩

/-- What a tick leaves behind, from a world with manifest `m`. -/
def TickPost (m : CurrentJson) (n : Nat) (observedTail : Option Nat) (r : Except Err TickReport)
    (w' : World) : Prop :=
  ∃ report, r = .ok report ∧ hintPublications w' ≤ n + 1 ∧ HintAtLeast m.tailHint w' ∧
    (report.succeeded = true → ∀ observed, observedTail = some observed →
      HintAtLeast observed w' ∨ observed - m.tailHint < maintenanceTailHintRefreshWrites)

/-- **A tick publishes the hint once, and leaves a small gap** if its own read and write went
    through. -/
theorem wp_runBoundedMaintenance_alone {prevSeq : Nat} {observedTail maxFoldBytes : Option Nat}
    {disabled : Bool} {options : Option BoundedMaintenanceOptions} (hcur : w.cur = some m)
    (hcount : hintPublications w = n) :
    (still codec c).wp 0
      (runBoundedMaintenance codec c prevSeq observedTail maxFoldBytes disabled options)
      (TickPost m n observedTail) w := by
  have hhint : HintAtLeast m.tailHint w := ⟨m, hcur, Nat.le_refl _⟩
  have hunread : TickPost m n observedTail (.ok ⟨false, []⟩) w :=
    ⟨_, rfl, by omega, hhint, fun hok => absurd hok nofun⟩
  refine Protocol.wp_bind (Protocol.wp_attempt (wp_readCurrentJson_alone ?_ fun e => hunread))
  rw [hcur]
  refine Protocol.wp_attempt_bind (wp_tickTail_alone observedTail) ?_
  rintro r w₁ ⟨rfl, hres⟩
  cases r with
  | error e => exact hunread
  | ok nextSeq =>
    dsimp only
    refine Protocol.wp_seq (wp_phases_alone (n := n)
      ⟨hhint, fun _ => ⟨hcount, rfl⟩, nofun⟩ rfl) ?_ ?_
    · rintro ⟨outcome, s⟩ w₂ ⟨_, s', hs, hinv⟩
      cases hs
      refine Protocol.wp_seq (wp_refresh_alone hinv (Or.inr rfl)) ?_ ?_
      · rintro s₁ w₃ ⟨s₂, hs, hinv₂, hsettled⟩
        cases hs
        refine ⟨_, rfl, ?_, hinv₂.hint, fun hok observed hobserved => ?_⟩
        · cases hflag : s₁.tailHintPublished with
          | false => exact Nat.le_succ_of_le (Nat.le_of_eq (hinv₂.unset hflag).1)
          | true => exact (hinv₂.set hflag).1
        · have hle := hres nextSeq rfl observed hobserved
          rcases hsettled with hflag | hsmall
          · exact Or.inl (((hinv₂.set hflag).2 hok).mono hle)
          · have hsmall' : nextSeq - m.tailHint < maintenanceTailHintRefreshWrites := hsmall
            exact Or.inr (by omega)
      · rintro e w₃ ⟨s₂, hs, -⟩
        cases hs
    · rintro e w₂ ⟨_, s', hs, -⟩
      cases hs

/-- **The dispatch of a commit** at `seq`. -/
theorem wp_dispatchMaintenance_alone {maint : Option MaintenanceDispatch} {prevSeq seq : Nat}
    (hcur : w.cur = some m) (hcount : hintPublications w = n) :
    (still codec c).wp 0 (dispatchMaintenance codec c maint m prevSeq seq)
      (fun r w' => ∃ report, r = .ok report ∧ hintPublications w' ≤ n + 1 ∧
        HintAtLeast m.tailHint w' ∧ (report.all TickReport.succeeded = true →
          maintenanceDue maint m prevSeq (seq + 1) = true →
          HintAtLeast (seq + 1) w' ∨ seq + 1 - m.tailHint < maintenanceTailHintRefreshWrites)) w := by
  unfold dispatchMaintenance
  split
  · refine Protocol.wp_seq (wp_runBoundedMaintenance_alone hcur hcount) ?_ ?_
    · rintro report w' ⟨report', hr, hpublished, hhint, hsettled⟩
      cases hr
      exact ⟨_, rfl, hpublished, hhint, fun hok _ => hsettled hok _ rfl⟩
    · rintro e w' ⟨report', hr, -⟩
      cases hr
  next hnot =>
    exact ⟨_, rfl, by omega, ⟨m, hcur, Nat.le_refl _⟩, fun _ hdue => absurd hdue hnot⟩

end Phases

/-! ## Runs of commits -/

/-- Commits that follow each other, from a world and a tail to a world and a tail.  Each reads the
    manifest, creates its entry at the tail and dispatches its tick, whose own read and publication
    go through. -/
inductive CommitRun (codec : Codec) (c : Collection) (gcInterval : Nat) (disabled : Bool)
    (w₀ : World) (tail₀ : Nat) : World → Nat → Prop where
  | start : CommitRun codec c gcInterval disabled w₀ tail₀ w₀ tail₀
  | commit {w w' : World} {tail : Nat} {m : CurrentJson} {report : Option TickReport}
      (entry : LogEntry) (maint : Option MaintenanceDispatch)
      (run : CommitRun codec c gcInterval disabled w₀ tail₀ w tail) (read : w.cur = some m)
      (interval : MaintenanceDispatch.gcInterval maint = gcInterval)
      (isDisabled : MaintenanceDispatch.isDisabled maint = disabled)
      (tick : Ends (dispatchMaintenance codec c maint m tail tail) (w.landLog tail entry)
        (.ok report) w')
      (succeeded : report.all TickReport.succeeded = true) :
      CommitRun codec c gcInterval disabled w₀ tail₀ w' (tail + 1)

section Runs

variable {codec : Codec} {c : Collection} {gcInterval : Nat} {disabled : Bool}

/-- The lag a run keeps: below the refresh interval at a GC boundary, and one more for each commit
    since. -/
def LagInv (gcInterval : Nat) (disabled : Bool) (tail tailHint : Nat) : Prop :=
  tail - tailHint < maintenanceTailHintRefreshWrites + if disabled then 0 else tail % gcInterval

theorem crosses_succ {prevSeq : Nat} (h : (prevSeq + 1) % gcInterval = 0) (hpos : 1 ≤ gcInterval) :
    crossesGcBoundary prevSeq (prevSeq + 1) gcInterval = true := by
  unfold crossesGcBoundary
  rw [decide_eq_true_iff]
  obtain ⟨k, hk⟩ := Nat.dvd_of_mod_eq_zero h
  rw [hk, Nat.mul_div_cancel_left k hpos]
  intro heq
  have hlt := Nat.lt_mul_div_succ prevSeq hpos
  have hle := Nat.mul_div_le prevSeq gcInterval
  rw [heq] at hle
  omega

/-- **One commit keeps the lag.** -/
theorem lagInv_commit {maint : Option MaintenanceDispatch} {tail : Nat} {m m' : CurrentJson}
    (hpos : 1 ≤ gcInterval) (hinterval : MaintenanceDispatch.gcInterval maint = gcInterval)
    (hdisabled : MaintenanceDispatch.isDisabled maint = disabled)
    (hlag : LagInv gcInterval disabled tail m.tailHint) (hmono : m.tailHint ≤ m'.tailHint)
    (hsettled : maintenanceDue maint m tail (tail + 1) = true → tail + 1 ≤ m'.tailHint ∨
      tail + 1 - m.tailHint < maintenanceTailHintRefreshWrites) :
    LagInv gcInterval disabled (tail + 1) m'.tailHint := by
  have hrefresh : 0 < maintenanceTailHintRefreshWrites := by decide
  unfold LagInv at *
  unfold maintenanceDue at hsettled
  rw [hdisabled, hinterval] at hsettled
  cases disabled with
  | true =>
    rw [if_pos rfl] at hlag hsettled ⊢
    by_cases hdue : maintenanceTailHintRefreshWrites ≤ tail + 1 - m.tailHint
    · rcases hsettled (decide_eq_true hdue) with hpublished | hsmall
      · omega
      · omega
    · omega
  | false =>
    rw [if_neg Bool.false_ne_true] at hlag hsettled ⊢
    by_cases hboundary : (tail + 1) % gcInterval = 0
    · -- a boundary: the tick runs, and either publishes or has found the gap small
      have hfires : shouldFireMaintenance m tail gcInterval (tail + 1) = true := by
        rw [shouldFireMaintenance, crosses_succ hboundary hpos]
        rfl
      rcases hsettled hfires with hpublished | hsmall
      · omega
      · omega
    · -- between boundaries the lag and the distance grow together
      have hstep : (tail + 1) % gcInterval = tail % gcInterval + 1 := by
        rw [Nat.add_mod_eq_ite]
        have hlt := Nat.mod_lt tail hpos
        have hone : 1 % gcInterval = 1 ∨ gcInterval = 1 := by
          rcases Nat.lt_or_ge 1 gcInterval with hlt | hge
          · exact Or.inl (Nat.mod_eq_of_lt hlt)
          · exact Or.inr (by omega)
        rcases hone with hone | rfl
        · rw [hone]
          split
          next hwrap =>
            have hexact : tail % gcInterval + 1 = gcInterval := by omega
            exact absurd (by rw [Nat.add_mod, hone, hexact, Nat.mod_self]) hboundary
          next => rfl
        · exact absurd (Nat.mod_one _) hboundary
      omega

/-- **The lag along a run.** -/
theorem CommitRun.lagInv {w₀ w : World} {tail₀ tail : Nat} {m₀ : CurrentJson}
    (hrun : CommitRun codec c gcInterval disabled w₀ tail₀ w tail) (hpos : 1 ≤ gcInterval)
    (hcur : w₀.cur = some m₀)
    (hstart : tail₀ - m₀.tailHint < maintenanceTailHintRefreshWrites) :
    ∃ m, w.cur = some m ∧ LagInv gcInterval disabled tail m.tailHint := by
  induction hrun with
  | start => exact ⟨m₀, hcur, Nat.lt_of_lt_of_le hstart (Nat.le_add_right _ _)⟩
  | @commit w w' tail m report entry maint _ hread hinterval hdisabled htick hok ih =>
    obtain ⟨m₁, hm₁, hlag⟩ := ih
    rw [hread] at hm₁
    cases hm₁
    have hwp := @wp_dispatchMaintenance_alone codec c (w.landLog tail entry) _ m maint tail tail
      hread rfl
    obtain ⟨report', hr, -, ⟨m', hm', hmono⟩, hsettled⟩ := htick.of_wp hwp
    cases hr
    refine ⟨m', hm', lagInv_commit hpos hinterval hdisabled hlag hmono fun hdue => ?_⟩
    rcases hsettled hok hdue with ⟨m₂, hm₂, hle⟩ | hsmall
    · rw [hm'] at hm₂
      cases hm₂
      exact Or.inl hle
    · exact Or.inr hsmall

/-- **The lag of `tail_hint` is bounded, and no tick publishes it twice.** -/
theorem tail_hint_lag_bounded (codec : Codec) (c : Collection) (gcInterval : Nat) (disabled : Bool)
    (hpos : 1 ≤ gcInterval) (w₀ : World) (tail₀ : Nat) (m₀ : CurrentJson) (hcur : w₀.cur = some m₀)
    (hstart : tail₀ - m₀.tailHint < maintenanceTailHintRefreshWrites) :
    (∀ w tail, CommitRun codec c gcInterval disabled w₀ tail₀ w tail →
      ∃ m, w.cur = some m ∧ tail - m.tailHint <
        maintenanceTailHintRefreshWrites + if disabled then 0 else gcInterval) ∧
    ∀ (w w' : World) (tail : Nat) (m : CurrentJson) (entry : LogEntry)
      (maint : Option MaintenanceDispatch) (r : Except Err (Option TickReport)),
      CommitRun codec c gcInterval disabled w₀ tail₀ w tail → w.cur = some m →
      Ends (dispatchMaintenance codec c maint m tail tail) (w.landLog tail entry) r w' →
      hintPublications w' ≤ hintPublications w + 1 := by
  refine ⟨fun w tail hrun => ?_, fun w w' tail m entry maint r _ hread htick => ?_⟩
  · obtain ⟨m, hm, hlag⟩ := hrun.lagInv hpos hcur hstart
    refine ⟨m, hm, Nat.lt_of_lt_of_le hlag (Nat.add_le_add_left ?_ _)⟩
    cases disabled with
    | true => exact Nat.le_refl _
    | false => exact Nat.le_of_lt (Nat.mod_lt tail hpos)
  · have hwp := @wp_dispatchMaintenance_alone codec c (w.landLog tail entry) _ m maint tail tail
      hread rfl
    obtain ⟨report, -, hpublished, -⟩ := htick.of_wp hwp
    exact hpublished

end Runs

/-! ## A commit on a boundary -/

/-- A host that collects garbage every 128 commits. -/
def slowCadence : MaintenanceDispatch where
  disabled := false
  maxFoldBytes := none
  options := some
    { profile := some { maintenanceProfileCfFree with gcInterval := 128 }
      minEntriesToCompact := none
      phasesPerTick := none
      gcGraceMillis := none
      logRetention := ⟨none, none⟩ }

/-- 127 entries that no tick has looked at yet. -/
def laggingWorld : World :=
  { soloWorld with log := fun n => if n < 127 then some { soloEntry with seq := n } else none }

/-- The tick of the next commit, every request of which succeeds: the manifest, the pass over an empty
    ledger, the refresh, and a retirement with nothing to retire. -/
def boundaryPicks : List Pick :=
  [.ok, .ok, .ok, .ok, .acked none, .keys [], .clock 7, .order [], .ok, .ok, .acked none, .ok, .ok,
    .acked none, .ok]

theorem tail_hint_lag_bounded_boundary : ∃ w',
    CommitRun soloCodec soloCollection 128 false laggingWorld 127 w' 128 ∧
      hintPublications w' = 1 ∧ hintPublications w' ≤ hintPublications laggingWorld + 1 ∧
      ∃ m, w'.cur = some m ∧ 128 - m.tailHint < 128 + 128 := by
  have hrun : (runAlone (dispatchMaintenance soloCodec soloCollection (some slowCadence) soloManifest
      127 127) boundaryPicks (laggingWorld.landLog 127 { soloEntry with seq := 127 })).map
      (fun end_ => (end_.1.toOption.map (Option.all TickReport.succeeded),
        hintPublications end_.2)) = some (some true, 1) := by
    decide +kernel
  obtain ⟨⟨r, w'⟩, hend, hresult⟩ := Option.map_eq_some_iff.mp hrun
  obtain ⟨hreport, hcount⟩ := Prod.mk.inj hresult
  obtain ⟨report, hr, hok⟩ := Option.map_eq_some_iff.mp hreport
  cases r with
  | error e => cases hr
  | ok report' =>
    cases hr
    have htick := Ends.of_run hend
    have hcommit : CommitRun soloCodec soloCollection 128 false laggingWorld 127 w' 128 :=
      .commit _ (some slowCadence) .start rfl rfl rfl htick hok
    obtain ⟨hlag, honce⟩ := tail_hint_lag_bounded soloCodec soloCollection 128 false (by decide)
      laggingWorld 127 soloManifest rfl (by decide)
    exact ⟨w', hcommit, hcount, honce _ w' 127 _ _ _ _ .start rfl htick, hlag w' 128 hcommit⟩

end Baerly
