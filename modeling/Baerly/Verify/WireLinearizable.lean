import Baerly.Verify.Linearizable
import Baerly.Verify.Transport

/-
  Commits and scans are linearizable over an adapter.

  SPEC: over S3, GCS or R2, one client making the calls one after the other, in an order that keeps the
  real time of the WIRE, gets the answers they got and leaves the log they left.

  CRUX: the run over the bucket looks like the run over the adapter throughout (`run_throughout`), so a
  call that had resolved on the wire before another started had done so over the bucket too.
-/

namespace Baerly

open Async

section Wire

variable {A : Adapter} {N : NumberText} {c : Collection} {codec : Codec}
variable {σ : WireState A} {τ : State} {t u : Nat}

/-- The scan of thread `t` resolved, on the wire. -/
def WireScanned (σ : WireState A) (t : Nat) : Prop :=
  ∃ state start res w, σ.threads[t]? = some ⟨.read state, start, .done (.ok res) w⟩

/-- Thread `t` resolved with a fresh commit, on the wire. -/
def WireCommitted (σ : WireState A) (t : Nat) : Prop :=
  ∃ th r w s, σ.threads[t]? = some th ∧ th.status = .done r w ∧
    commitOutcome th.call r = some (.ok s) ∧ s.replayed = false

/-- The call of thread `t` had resolved on the wire when thread `u` was not there yet. -/
def WirePrecedes (A : Adapter) (N : NumberText) (c : Collection) (codec : Codec)
    (acts : List (Act (wired A N c codec))) (t u : Nat) : Prop :=
  ∃ as bs ρ, acts = as ++ bs ∧ (wired A N c codec).run (WireState.init A) as = some ρ ∧
    (WireScanned ρ t ∨ WireCommitted ρ t) ∧ ρ.threads.length ≤ u

/-- What every call of the run decided on was what is committed. -/
structure WireFaithful (σ : WireState A) : Prop where
  readbacks : ∀ t, Genuine t σ.world.bucket
  scans : ∀ t, Exact .scan t σ.world.bucket
  /-- Every fresh commit had its floor check. -/
  checks : ∀ (t : Nat) (th : Thread (Wire A) Op Resp Err Call Res) r w s, σ.threads[t]? = some th →
    th.status = .done r w → commitOutcome th.call r = some (.ok s) → s.replayed = false →
    s.floorChecked = true

/-! ## The same, over the bucket -/

/-- A scan that resolved on the wire did so over the bucket. -/
theorem WireScanned.over_bucket (h : WireScanned σ t) (halike : σ.Alike (Models N c) τ) :
    Scanned τ t := by
  obtain ⟨state, start, res, w, hth⟩ := h
  obtain ⟨th, hth', hsame⟩ := exists_related halike.threads hth
  cases hsame with
  | @mk _ _ start' _ _ hstart hstatus =>
    cases hstatus with
    | @done _ _ w' hw => exact ⟨state, start', res, w', hth'⟩

/-- So did a commit. -/
theorem WireCommitted.over_bucket (h : WireCommitted σ t) (halike : σ.Alike (Models N c) τ) :
    Committed τ t := by
  obtain ⟨th, r, w, s, hth, hstatus, ho, hfresh⟩ := h
  obtain ⟨th', hth', hsame⟩ := exists_related halike.threads hth
  cases hsame with
  | mk call hstart hsettled =>
    cases hsettled with
    | waiting op k => cases hstatus
    | done r' hw =>
      cases hstatus
      exact ⟨_, _, _, s, hth', rfl, ho, hfresh⟩

/-- So did either. -/
theorem back_over_bucket (h : WireScanned σ t ∨ WireCommitted σ t)
    (halike : σ.Alike (Models N c) τ) : Scanned τ t ∨ Committed τ t := by
  rcases h with hscan | hcommit
  · exact Or.inl (hscan.over_bucket halike)
  · exact Or.inr (hcommit.over_bucket halike)

/-- A run that decided on what is committed did so over the bucket. -/
theorem WireFaithful.over_bucket (h : WireFaithful σ) (halike : σ.Alike (Models N c) τ) :
    Faithful τ := by
  have htrace : τ.world.trace = σ.world.bucket.trace := by rw [halike.world.bucket]
  refine ⟨fun t guarded n e k hmem => ?_, fun t n v k hmem => ?_, ?_⟩
  · exact h.readbacks t guarded n e k (htrace ▸ hmem)
  · exact h.scans t n v k (htrace ▸ hmem)
  · intro t th r w s hth hstatus ho hfresh
    obtain ⟨th', hth', hsame⟩ := exists_related halike.threads.flip hth
    cases hsame with
    | mk call hstart hsettled =>
      cases hsettled with
      | waiting op k => cases hstatus
      | done r' hw =>
        cases hstatus
        exact h.checks t _ _ _ s hth' rfl ho hfresh

end Wire

/-! ## The order -/

section Linearizable

variable {N : NumberText} {c : Collection} {codec : Codec}

/-- **Commits and scans are linearizable over S3, GCS and R2.**  The calls of a run over a backend have
    the outcomes of a run over the bucket, `τ`; some order of the resolved scans and of the calls that
    committed is a run of one client with those outcomes and that log, and no call stands before one
    that had resolved on the wire when it started. -/
theorem adapters_linearizable (b : Backend) {acts : List (Act (wired b.adapter N c codec))}
    {σ : WireState b.adapter} (hr : (wired b.adapter N c codec).run (WireState.init _) acts = some σ)
    (hplain : σ.world.Plain) (htrue : WireFaithful σ) :
    ∃ τ : State, σ.Alike (Models N c) τ ∧ ∃ order : List Nat, order.Nodup ∧
      (∀ t, WireScanned σ t ∨ WireCommitted σ t → t ∈ order) ∧
      Runs (Performs c τ) order [] σ.world.bucket.hist ∧
      order.Pairwise fun t u => ¬ WirePrecedes b.adapter N c codec acts u t := by
  have hinit : (WireState.init b.adapter).Alike (Models N c) State.init :=
    ⟨⟨rfl, .nil, good_empty⟩, .nil⟩
  obtain ⟨acts', ⟨τ, hrun, halike⟩, hcuts⟩ :=
    (wireSimulation (truthful_backend b) N c codec).run_throughout hr hplain hinit
  replace halike : σ.Alike (Models N c) τ := halike
  have hfaithful := htrue.over_bucket halike
  choose seen hseen using exists_sees hrun hfaithful
  have hagrees := timeline_agrees hrun hfaithful hseen
  -- what came first on the wire came first over the bucket
  have hprecedes : ∀ t u, WirePrecedes b.adapter N c codec acts t u → Precedes codec c acts' t u := by
    rintro t u ⟨as, bs, ρ, hcut, has, hback, hlen⟩
    obtain ⟨as', bs', ρ₁, ρ', hcut', hρ₁, hρ', hsame⟩ := hcuts as bs hcut
    obtain rfl := Option.some.inj (has.symm.trans hρ₁)
    exact ⟨as', bs', ρ', hcut', hρ', back_over_bucket hback hsame,
      hsame.threads.length_eq ▸ hlen⟩
  have hhist : τ.world.hist = σ.world.bucket.hist := by rw [halike.world.bucket]
  refine ⟨τ, halike, (timeline τ seen).order, hagrees.nodup_order, fun t hback => ?_, ?_, ?_⟩
  · exact back_mem_order hrun hfaithful hagrees (back_over_bucket hback halike)
  · rw [← hhist]
    exact order_performs hrun hfaithful hseen
  · exact hagrees.respects.imp fun hnot hbefore => hnot (hprecedes _ _ hbefore)

end Linearizable

/-! ### A lost acknowledgement and a scan -/

/-- A fresh commit of the thread had its floor check. -/
def hadWireCheck {A : Adapter} (th : Thread (Wire A) Op Resp Err Call Res) : Bool :=
  match th.status with
  | .done r _ =>
    match commitOutcome th.call r with
    | some (.ok s) => s.replayed || s.floorChecked
    | _ => true
  | .waiting _ _ => true

/-- It can be decided from its record. -/
theorem wireFaithful_of_all {A : Adapter} {σ : WireState A}
    (htrace : σ.world.bucket.trace.all Event.faithful = true)
    (hthreads : σ.threads.all hadWireCheck = true) : WireFaithful σ where
  readbacks := by
    intro t guarded n e k hmem
    have hev := List.all_eq_true.mp htrace _ hmem
    simpa [Event.faithful] using hev
  scans := by
    intro t n v k hmem
    have hev := List.all_eq_true.mp htrace _ hmem
    simpa [Event.faithful] using hev
  checks := by
    intro t th r w₁ s hth hstatus ho hfresh
    have hcheck := List.all_eq_true.mp hthreads th (List.mem_of_getElem? hth)
    simpa [hadWireCheck, hstatus, ho, hfresh] using hcheck

/-- Thread 0 finds out that its create landed; then thread 1 scans. -/
def lostThenScan : List WireAct :=
  lostAcknowledgement ++ List.replicate 2 (.step 0 Pick.ok) ++ [.spawn (.read scanAll)] ++
    List.replicate 3 (.step 1 Pick.ok)

theorem adapters_linearizable_lostThenScan : ∃ σ,
    (wired sampleBackend.adapter integerText sampleCollection sampleCodec).run (WireState.init _)
      lostThenScan = some σ ∧ (σ.threads.length, σ.world.bucket.tail) = (2, 1) ∧
    ∃ τ : State, σ.Alike (Models integerText sampleCollection) τ ∧ ∃ order : List Nat, order.Nodup ∧
      (∀ t, WireScanned σ t ∨ WireCommitted σ t → t ∈ order) ∧
      Runs (Performs sampleCollection τ) order [] σ.world.bucket.hist ∧
      order.Pairwise fun t u => ¬ WirePrecedes sampleBackend.adapter integerText sampleCollection
        sampleCodec lostThenScan u t := by
  have hrun : ((wired sampleBackend.adapter integerText sampleCollection sampleCodec).run
      (WireState.init _) lostThenScan).map (fun σ =>
        (σ.world.transfers.all (·.req.conditionalCreate), σ.world.bucket.trace.all Event.faithful,
          σ.threads.all hadWireCheck, σ.threads.length, σ.world.bucket.tail)) =
      some (true, true, true, 2, 1) := by
    decide +kernel
  obtain ⟨σ, hr, hfacts⟩ := exists_wired hrun
  simp only [Prod.mk.injEq] at hfacts
  obtain ⟨hcreates, htrace, hthreads, hlength, htail⟩ := hfacts
  exact ⟨σ, hr, by rw [hlength, htail], adapters_linearizable sampleBackend hr
    (plain_of_creates hcreates) (wireFaithful_of_all htrace hthreads)⟩

end Baerly
