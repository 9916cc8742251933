import Baerly.Verify.Manifest

/-
  `runGc` keeps the protocol.

  CRUX: a snapshot is only deleted when its fold end lies strictly below the floor of a manifest
  that was read, and floors never go back.  Neither the mark, nor the clock, nor the grace period
  enters the argument.
-/

namespace Baerly

open Async

variable {codec : Codec} {c : Collection} {t : Nat} {w : World}

/-! ## The ledger -/

/-- A ledger without legacy records gets none from a pass. -/
theorem NoLegacy.merge {latest : GcPending} {pass : GcPass} (h : latest.NoLegacy)
    (hnew : ∀ x ∈ pass.newCandidates, x.reason = .orphanSnapshot) :
    (mergeGcPending latest pass).NoLegacy := by
  intro x hx
  rcases mem_mergeGcPending hx with hold | hmark
  · exact h x hold
  · exact hnew x hmark

/-- A ledger that is read has none. -/
theorem wp_readGcPending :
    (protocol codec c).wp t (readGcPending c) (fun r w' => Quiet t w w' ∧
      ∀ p, r = .ok (some p) → p.NoLegacy) w := by
  refine Protocol.wp_seq wp_getPending ?_ ?_
  · rintro (_ | p) w₁ ⟨hq, hp⟩
    · exact ⟨hq, fun p h => by cases h⟩
    · refine wp_check (fun _ _ => ⟨hq, fun p' h => ?_⟩) fun e _ => ⟨hq, fun p' h => by cases h⟩
      cases h
      exact hp p rfl
  · rintro e w₁ ⟨hq, _⟩
    exact ⟨hq, fun p h => by cases h⟩

/-- Writing the ledger leaves the thread's commits as they were. -/
theorem wp_writePending {r : Req} (hr : ReqOk codec c w t r) (hnc : r.isCreateLog = false) :
    (protocol codec c).wp t (writePending c r) (fun _ w' => Quiet t w w') w := by
  refine Protocol.wp_tryCatch (Protocol.wp_mono (wp_write hr hnc) ?_)
  rintro (e | date) w₁ ⟨hq, _⟩
  · exact hq
  · exact hq

/-- The bounded retry: each round reads the ledger again. -/
theorem wp_casUpdateGcPending {mutator : GcPending → GcPending}
    (hmut : ∀ p : GcPending, p.NoLegacy → (mutator p).NoLegacy) :
    ∀ (attempts : Nat) (lastConflict : Err) (w : World),
      (protocol codec c).wp t (casUpdateGcPending c mutator attempts lastConflict)
        (fun _ w' => Quiet t w w') w := by
  intro attempts
  induction attempts with
  | zero => intro _ w; exact Quiet.refl t w
  | succ attempts ih =>
    intro lastConflict w
    refine Protocol.wp_seq wp_readGcPending ?_ fun e w₁ h => h.1
    rintro (_ | existing) w₁ ⟨hq₁, hp⟩
    · exact hq₁
    · refine wp_check (fun _ _ => ?_) fun e _ => hq₁
      have hok : ReqOk codec c w₁ t (.casPending existing (mutator existing)) :=
        hmut existing (hp existing rfl)
      refine Protocol.wp_attempt_bind (wp_writePending hok rfl) ?_
      rintro (e | date) w₂ hq₂
      · dsimp only
        split
        · exact Protocol.wp_mono (ih e w₂) fun r w₃ hq₃ => (hq₁.trans hq₂).trans hq₃
        · exact hq₁.trans hq₂
      · exact hq₁.trans hq₂

/-- A new ledger has no legacy record either. -/
theorem wp_readOrCreatePending :
    (protocol codec c).wp t (readOrCreatePending c) (fun r w' => Quiet t w w' ∧
      ∀ p, r = .ok p → p.NoLegacy) w := by
  refine Protocol.wp_seq wp_readGcPending ?_ ?_
  · rintro (_ | p) w₁ ⟨hq₁, hp⟩
    · have hempty : (⟨[], none⟩ : GcPending).NoLegacy := fun x hx => by cases hx
      have hok : ReqOk codec c w₁ t (.createPending ⟨[], none⟩) := hempty
      refine Protocol.wp_attempt_bind (wp_writePending hok rfl) ?_
      rintro (e | date) w₂ hq₂
      · dsimp only
        split
        · refine Protocol.wp_seq wp_readGcPending ?_ ?_
          · rintro (_ | p) w₃ ⟨hq₃, hp₃⟩
            · exact ⟨(hq₁.trans hq₂).trans hq₃, fun p h => by cases h⟩
            · refine ⟨(hq₁.trans hq₂).trans hq₃, fun p' h => ?_⟩
              cases h
              exact hp₃ p rfl
          · rintro e' w₃ ⟨hq₃, _⟩
            exact ⟨(hq₁.trans hq₂).trans hq₃, fun p h => by cases h⟩
        · exact ⟨hq₁.trans hq₂, fun p h => by cases h⟩
      · refine ⟨hq₁.trans hq₂, fun p h => ?_⟩
        cases h
        exact hempty
    · refine ⟨hq₁, fun p' h => ?_⟩
      cases h
      exact hp p rfl
  · rintro e w₁ ⟨hq₁, _⟩
    exact ⟨hq₁, fun p h => by cases h⟩

/-! ## Mark and sweep -/

/-- Candidates are marked as orphan snapshots only. -/
theorem wp_markOrphans {current : CurrentJson} {grace : Nat} {known : List Key} :
    ∀ (keys : List Key) (w : World),
      (protocol codec c).wp t (markOrphans c current grace known keys) (fun r w' => Quiet t w w' ∧
        ∀ cands, r = .ok cands → ∀ x ∈ cands, x.reason = .orphanSnapshot) w := by
  intro keys
  induction keys with
  | nil =>
    intro w
    refine ⟨.refl t w, fun cands h => ?_⟩
    cases h
    intro x hx
    cases hx
  | cons key keys ih =>
    intro w
    unfold markOrphans
    split
    · exact ih w
    · refine Protocol.wp_seq wp_now ?_ fun e w₁ hq => ⟨hq, fun cands h => by cases h⟩
      intro ms w₁ hq₁
      refine Protocol.wp_seq (ih w₁) ?_ ?_
      · rintro rest w₂ ⟨hq₂, hrest⟩
        refine ⟨hq₁.trans hq₂, fun cands h => ?_⟩
        cases h
        intro x hx
        rcases List.mem_cons.mp hx with rfl | hx
        · rfl
        · exact hrest rest rfl x hx
      · rintro e w₂ ⟨hq₂, _⟩
        exact ⟨hq₁.trans hq₂, fun cands h => by cases h⟩

/-- Whatever is swept was a candidate that passed the deletion authority. -/
theorem mem_splitDue {fresh : Option CurrentJson} {nowMs : Nat} {maxSweeps : Option Nat}
    {dropped : List Key} {x : GcCandidate} : ∀ (cands : List GcCandidate) (taken : Nat),
    x ∈ (splitDue c fresh nowMs maxSweeps dropped taken cands).1 →
      x ∈ cands ∧ mayDelete c fresh x = true := by
  intro cands
  induction cands with
  | nil => intro taken h; cases h
  | cons y ys ih =>
    intro taken h
    unfold splitDue at h
    split at h
    · obtain ⟨hmem, hdel⟩ := ih taken h
      exact ⟨List.mem_cons_of_mem _ hmem, hdel⟩
    · split at h
      next hdue =>
        rcases List.mem_cons.mp h with rfl | h
        · exact ⟨List.mem_cons_self, hdue.2.2⟩
        · obtain ⟨hmem, hdel⟩ := ih (taken + 1) h
          exact ⟨List.mem_cons_of_mem _ hmem, hdel⟩
      · obtain ⟨hmem, hdel⟩ := ih taken h
        exact ⟨List.mem_cons_of_mem _ hmem, hdel⟩

/-- **The deletion authority.**  What a pass may delete covers less than is folded already. -/
theorem mayDelete_outlived {fresh : Option CurrentJson} {x : GcCandidate}
    (hfresh : ∀ m, fresh = some m → ManifestOk codec c w m) (hx : x.reason = .orphanSnapshot)
    (h : mayDelete c fresh x = true) : Outlived c w x.key := by
  simp only [mayDelete, hx, ne_eq, not_true_eq_false, false_or, decide_eq_true_eq] at h
  cases hp : parseMaxSeqFromCanonicalSnapshotKey x.key c.collectionPrefix with
  | none => rw [hp] at h; simp at h
  | some n =>
    rw [hp] at h
    simp only [Option.any_some, decide_eq_true_eq] at h
    cases fresh with
    | none => simp at h
    | some m =>
      have hle := (hfresh m rfl).start_le
      simp only [Option.map_some, Option.getD_some] at h
      exact ⟨n, hp, by omega⟩

/-- So recording a pass is allowed. -/
theorem wp_recordPass {pass : GcPass} {remaining : Nat}
    (hnew : ∀ x ∈ pass.newCandidates, x.reason = .orphanSnapshot) :
    (protocol codec c).wp t (recordPass c pass remaining) (fun _ w' => Quiet t w w') w := by
  refine Protocol.wp_attempt_bind (wp_casUpdateGcPending (fun p hp => NoLegacy.merge hp hnew)
    _ _ w) ?_
  rintro (e | updated) w₁ hq
  · dsimp only
    split
    · exact hq
    · exact hq
  · exact hq

/-- **The sweep.** -/
theorem wp_sweepPass {opts : RunGcOptions} {current : CurrentJson} {fresh : Option CurrentJson}
    {nowMs : Nat} {pending newCandidates : List GcCandidate}
    (hfresh : ∀ m, fresh = some m → ManifestOk codec c w m)
    (hpending : ∀ x ∈ pending, x.reason = .orphanSnapshot)
    (hnew : ∀ x ∈ newCandidates, x.reason = .orphanSnapshot) :
    (protocol codec c).wp t (sweepPass c opts current fresh nowMs pending newCandidates)
      (fun _ w' => Quiet t w w') w := by
  unfold sweepPass
  dsimp only
  refine Protocol.wp_seq (wp_writeAll ?_ ?_) ?_ fun e w₁ hq => hq
  · intro id w₁
    exact Protocol.wp_seq (wp_await id) (fun a w₂ hq => hq) fun e w₂ hq => hq
  · intro r hr
    obtain ⟨x, hx, rfl⟩ := List.mem_map.mp hr
    obtain ⟨hmem, hdel⟩ := mem_splitDue _ _ hx
    have hreason : x.reason = .orphanSnapshot := by
      rcases List.mem_append.mp hmem with h | h
      · exact hpending x h
      · exact hnew x h
    have hreq : sweepRequest c x = .deleteSnapshot x.key := by
      unfold sweepRequest
      rw [hreason]
    rw [hreq]
    exact ⟨mayDelete_outlived hfresh hreason hdel, rfl⟩
  · intro _ w₁ hq₁
    refine Protocol.wp_seq (Q := fun _ w' => Quiet t w w') ?_ ?_ fun e w₂ hq => hq
    · split
      · exact hq₁
      · exact Protocol.wp_seq wp_now (fun a w₂ hq => hq₁.trans hq) fun e w₂ hq => hq₁.trans hq
    · intro sweptAt w₂ hq₂
      refine Protocol.wp_seq (wp_recordPass hnew) ?_ fun e w₃ hq => hq₂.trans hq
      exact fun depth w₃ hq => hq₂.trans hq

/-- **Rule for `runGc`**: any clock, any grace period. -/
theorem wp_runGc {opts : RunGcOptions} :
    (protocol codec c).wp t (runGc c opts) (fun _ w' => Calm t w w') w := by
  refine Protocol.wp_seq wp_readCurrentJson ?_ fun e w₁ h => h.1
  rintro (_ | current) w₁ ⟨hcalm, _⟩
  · exact hcalm
  · refine Protocol.wp_seq wp_readOrCreatePending ?_ fun e w₂ h => hcalm.trans h.1.toCalm
    rintro pending w₂ ⟨hq₂, hp⟩
    have hcalm₂ := hcalm.trans hq₂.toCalm
    refine Protocol.wp_seq wp_listSnapshots ?_ fun e w₃ h => hcalm₂.trans h.toCalm
    intro keys w₃ hq₃
    have hcalm₃ := hcalm₂.trans hq₃.toCalm
    refine Protocol.wp_seq (wp_markOrphans keys w₃) ?_ fun e w₄ h => hcalm₃.trans h.1.toCalm
    rintro newCandidates w₄ ⟨hq₄, hnew⟩
    have hcalm₄ := hcalm₃.trans hq₄.toCalm
    refine Protocol.wp_seq wp_now ?_ fun e w₅ h => hcalm₄.trans h.toCalm
    intro nowMs w₅ hq₅
    have hcalm₅ := hcalm₄.trans hq₅.toCalm
    refine Protocol.wp_seq (Q := fun r w' => Calm t w w' ∧
      ∀ v, r = .ok v → ∀ m, v = some m → ManifestOk codec c w' m) ?_ ?_ fun e w₆ h => h.1
    · split
      · refine Protocol.wp_mono wp_readCurrentJson ?_
        rintro r w₆ ⟨hcalm₆, hread⟩
        exact ⟨hcalm₅.trans hcalm₆, fun v hv => (hread v hv).found⟩
      · refine ⟨hcalm₅, fun v hv => ?_⟩
        cases hv
        intro m hm
        cases hm
    · rintro fresh w₆ ⟨hcalm₆, hfresh⟩
      exact Protocol.wp_mono (wp_sweepPass (hfresh fresh rfl) (hp pending rfl)
        (hnew newCandidates rfl)) fun r w₇ hq₇ => hcalm₆.trans hq₇.toCalm

end Baerly
