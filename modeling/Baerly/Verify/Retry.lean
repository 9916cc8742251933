import Baerly.Retry
import Baerly.Verify.SnapshotManifest

/-
  What the rejection of a retried create says about the store.

  SPEC: a rejection the writer reads as "certainly not applied" is only given when no attempt was
  applied (`FateKept`).

  The loop keeps that promise except in one shape of run (`MarkAfterApplied`): the budget is spent
  on an error that carries the `notApplied` mark of its own attempt, and an earlier attempt was
  applied.  The mark then leaves the loop as it came.

  CRUX: `uncertain` stays down only as long as every attempt was throttled, so it is down only if
  nothing was applied (`loop_fate`).
-/

namespace Baerly

variable {α : Type} {fn : Nat → Attempt α}

/-! ## One attempt -/

theorem Attempt.not_applied_of_throttled {x : Attempt α} {r : Rejection}
    (h : x.outcome = .error r) (ht : r.isThrottled = true) : x.applied = false := by
  apply x.refused r h
  simp [Rejection.provesNotApplied, ht]

theorem Attempt.not_applied_of_isNotApplied {x : Attempt α} {r : Rejection}
    (h : x.outcome = .error r) (hn : r.error.isNotApplied = true) : x.applied = false := by
  apply x.refused r h
  simp [Rejection.provesNotApplied, hn]

/-- A permanent rejection is reported as "not applied" only when the loop is certain. -/
theorem permanentFailure_isNotApplied {uncertain : Bool} {e : Err}
    (h : (permanentFailure true uncertain e).isNotApplied = true) :
    uncertain = false ∧ e.isNotApplied = true := by
  unfold permanentFailure at h
  split at h
  · cases h
  next hif =>
    cases uncertain with
    | false => exact ⟨rfl, h⟩
    | true =>
      -- only a conflict passes through while the loop is uncertain, and it is no such verdict
      have hconflict : e.isWriteConflict = true := by simpa using hif
      cases e with
      | baerly code message id notApplied => cases code <;> cases h <;> cases hconflict
      | abort => cases h
      | other message => cases h

theorem lastFailure_uncertain (e : Err) : lastFailure true true e = e := by
  cases e <;> rfl

/-- A rejection that is retried carries the "not applied" verdict only through its mark. -/
theorem isCreateNotApplied_of_retried {r : Rejection} (hp : r.isPermanent = false)
    (h : r.error.isNotApplied = true) : r.error.isCreateNotApplied = true := by
  obtain ⟨e, throttled⟩ := r
  cases e with
  | baerly code message id notApplied =>
    cases code <;> first | exact h | cases hp
  | abort => cases h
  | other message => cases h

/-! ## The loop -/

/-- The attempts from `attempt` on are all rejected in a way that is retried. -/
def Spent (fn : Nat → Attempt α) (left attempt : Nat) : Prop :=
  ∀ i, attempt ≤ i → i ≤ attempt + left →
    ∃ r, (fn i).outcome = .error r ∧ r.isPermanent = false

theorem Spent.tail {left attempt : Nat} (h : Spent fn (left + 1) attempt) :
    Spent fn left (attempt + 1) :=
  fun i hlo hhi => h i (by omega) (by omega)

theorem attemptsMade_spent {left attempt : Nat} (h : Spent fn left attempt) :
    attemptsMade fn left attempt = left + 1 := by
  induction left generalizing attempt with
  | zero => rfl
  | succ left ih =>
    obtain ⟨r, hr, hp⟩ := h attempt (Nat.le_refl _) (by omega)
    simp only [attemptsMade, hr, hp, Bool.false_eq_true, if_false, ih h.tail]

/-- The error the loop ends with when it spends its budget on a marked error. -/
def EndsMarked (fn : Nat → Attempt α) (left attempt : Nat) : Prop :=
  Spent fn left attempt ∧
    ∃ r, (fn (attempt + left)).outcome = .error r ∧ r.error.isCreateNotApplied = true

/-- **The loop.**  A "not applied" verdict is right about every attempt made, or it is the mark of
    the last one. -/
theorem loop_fate {e : Err} : ∀ (left attempt : Nat) (uncertain : Bool),
    (uncertain = false → ∀ i < attempt, (fn i).applied = false) →
    retryLoop true fn left attempt uncertain = .error e → e.isNotApplied = true →
      (∀ i < attempt + attemptsMade fn left attempt, (fn i).applied = false) ∨
        EndsMarked fn left attempt := by
  -- what a permanent rejection at `attempt` says about the attempts up to it
  have hpermanent : ∀ {attempt : Nat} {uncertain : Bool} {r : Rejection},
      (uncertain = false → ∀ i < attempt, (fn i).applied = false) →
      (fn attempt).outcome = .error r →
      (permanentFailure true uncertain r.error).isNotApplied = true →
      ∀ i < attempt + 1, (fn i).applied = false := by
    intro attempt uncertain r hsure hr hn i hi
    obtain ⟨hun, hnot⟩ := permanentFailure_isNotApplied hn
    rcases Nat.lt_succ_iff_lt_or_eq.mp hi with hlt | rfl
    · exact hsure hun i hlt
    · exact (fn i).not_applied_of_isNotApplied hr hnot
  -- a loop that is still certain after `attempt` saw nothing but throttles
  have hstep : ∀ {attempt : Nat} {uncertain : Bool} {r : Rejection},
      (uncertain = false → ∀ i < attempt, (fn i).applied = false) →
      (fn attempt).outcome = .error r → (uncertain || !r.isThrottled) = false →
      ∀ i < attempt + 1, (fn i).applied = false := by
    intro attempt uncertain r hsure hr hcertain i hi
    simp only [Bool.or_eq_false_iff, Bool.not_eq_false'] at hcertain
    rcases Nat.lt_succ_iff_lt_or_eq.mp hi with hlt | rfl
    · exact hsure hcertain.1 i hlt
    · exact (fn i).not_applied_of_throttled hr hcertain.2
  intro left
  induction left with
  | zero =>
    intro attempt uncertain hsure h hn
    rw [retryLoop] at h
    cases hr : (fn attempt).outcome with
    | ok a => rw [hr] at h; cases h
    | error r =>
      rw [hr] at h
      dsimp only at h
      split at h
      next hp =>
        cases h
        exact Or.inl (hpermanent hsure hr hn)
      next hp =>
        cases h
        have hp' : r.isPermanent = false := by simpa using hp
        by_cases hcertain : (uncertain || !r.isThrottled) = false
        · exact Or.inl (hstep hsure hr hcertain)
        · rw [Bool.eq_true_of_not_eq_false hcertain, lastFailure_uncertain] at hn
          refine Or.inr ⟨fun i hlo hhi => ?_, r, hr, isCreateNotApplied_of_retried hp' hn⟩
          rw [show i = attempt by omega]
          exact ⟨r, hr, hp'⟩
  | succ left ih =>
    intro attempt uncertain hsure h hn
    rw [retryLoop] at h
    rw [attemptsMade]
    cases hr : (fn attempt).outcome with
    | ok a => rw [hr] at h; cases h
    | error r =>
      rw [hr] at h
      dsimp only at h ⊢
      by_cases hp : r.isPermanent = true
      · rw [if_pos hp] at h ⊢
        cases h
        exact Or.inl (hpermanent hsure hr hn)
      · rw [if_neg hp] at h ⊢
        have hp' : r.isPermanent = false := by simpa using hp
        rcases ih (attempt + 1) _ (hstep hsure hr) h hn with hnone | ⟨hspent, hlast⟩
        · refine Or.inl fun i hi => hnone i ?_
          omega
        · rw [show attempt + 1 + left = attempt + (left + 1) by omega] at hlast
          refine Or.inr ⟨fun i hlo hhi => ?_, hlast⟩
          rcases Nat.eq_or_lt_of_le hlo with rfl | hlt
          · exact ⟨r, hr, hp'⟩
          · exact hspent i hlt (by omega)

/-- Once uncertain, a spent budget reports the last error as it is. -/
theorem loop_uncertain {r : Rejection} : ∀ (left attempt : Nat), Spent fn left attempt →
    (fn (attempt + left)).outcome = .error r →
    retryLoop true fn left attempt true = .error r.error := by
  intro left
  induction left with
  | zero =>
    intro attempt hspent hlast
    obtain ⟨r', hr', hp⟩ := hspent attempt (Nat.le_refl _) (Nat.le_refl _)
    have heq : r' = r := by
      rw [Nat.add_zero, hr'] at hlast
      cases hlast
      rfl
    subst heq
    simp only [retryLoop, hr', hp, Bool.false_eq_true, if_false, Bool.true_or,
      lastFailure_uncertain]
  | succ left ih =>
    intro attempt hspent hlast
    obtain ⟨r', hr', hp⟩ := hspent attempt (Nat.le_refl _) (by omega)
    simp only [retryLoop, hr', hp, Bool.false_eq_true, if_false, Bool.true_or]
    apply ih (attempt + 1) hspent.tail
    rw [show attempt + 1 + left = attempt + (left + 1) by omega]
    exact hlast

/-- An attempt that was applied before the last one makes the loop uncertain. -/
theorem loop_applied {r : Rejection} {i : Nat} (happ : (fn i).applied = true) :
    ∀ (left attempt : Nat) (uncertain : Bool), Spent fn left attempt → attempt ≤ i →
      i < attempt + left → (fn (attempt + left)).outcome = .error r →
      retryLoop true fn left attempt uncertain = .error r.error := by
  intro left
  induction left with
  | zero =>
    intro attempt uncertain _ hlo hhi
    omega
  | succ left ih =>
    intro attempt uncertain hspent hlo hhi hlast
    obtain ⟨r', hr', hp⟩ := hspent attempt (Nat.le_refl _) (by omega)
    rw [show attempt + (left + 1) = attempt + 1 + left by omega] at hlast hhi
    simp only [retryLoop, hr', hp, Bool.false_eq_true, if_false]
    rcases Nat.eq_or_lt_of_le hlo with rfl | hlt
    · have hthrottled : r'.isThrottled = false := by
        by_contra hne
        rw [(fn attempt).not_applied_of_throttled hr' (by simpa using hne)] at happ
        cases happ
      rw [hthrottled, Bool.not_false, Bool.or_true]
      exact loop_uncertain left (attempt + 1) hspent.tail hlast
    · exact ih (attempt + 1) _ hspent.tail hlt hhi hlast

/-! ## The call -/

/-- The promise of a conditional create: a rejection the writer reads as "certainly not applied"
    is right about every attempt made, and a call one of whose attempts was applied resolves, or
    rejects with a conflict, or with an error that carries neither verdict. -/
def FateKept (N : NumberText) (retries : Option JsNumber) (fn : Nat → Attempt α) : Prop :=
  (∀ e, retryStorageCall N ⟨retries, true⟩ fn = .error e →
    e.isDefinitiveCreateRejection = true ∨ e.isCreateNotApplied = true →
    ∀ i < attemptsOf ⟨retries, true⟩ fn, (fn i).applied = false) ∧
  ((∃ i < attemptsOf ⟨retries, true⟩ fn, (fn i).applied = true) →
    (∃ a, retryStorageCall N ⟨retries, true⟩ fn = .ok a) ∨
    ∃ e, retryStorageCall N ⟨retries, true⟩ fn = .error e ∧
      (e.isWriteConflict = true ∨
        e.isDefinitiveCreateRejection = false ∧ e.isCreateNotApplied = false))

/-- The last permitted attempt is rejected with the mark `notApplied`, no earlier one ended the
    loop, and one of them was applied. -/
def MarkAfterApplied (retries : Nat) (fn : Nat → Attempt α) : Prop :=
  EndsMarked fn retries 0 ∧ ∃ i < retries, (fn i).applied = true

/-- The second half of the promise is the first one read backwards. -/
theorem fateKept_iff {N : NumberText} {retries : Option JsNumber} :
    FateKept N retries fn ↔ ∀ e, retryStorageCall N ⟨retries, true⟩ fn = .error e →
      e.isNotApplied = true → ∀ i < attemptsOf ⟨retries, true⟩ fn, (fn i).applied = false := by
  constructor
  · intro h e he hn
    rw [Err.isNotApplied_eq, Bool.or_eq_true] at hn
    exact h.1 e he hn
  · intro h
    refine ⟨fun e he hn => h e he ?_, ?_⟩
    · rw [Err.isNotApplied_eq, Bool.or_eq_true]
      exact hn
    · rintro ⟨i, hi, happ⟩
      cases hres : retryStorageCall N ⟨retries, true⟩ fn with
      | ok a => exact Or.inl ⟨a, rfl⟩
      | error e =>
        refine Or.inr ⟨e, rfl, Or.inr ?_⟩
        have hno : e.isNotApplied = false := by
          by_contra hne
          rw [h e hres (by simpa using hne) i hi] at happ
          cases happ
        rwa [Err.isNotApplied_eq, Bool.or_eq_false_iff] at hno

/-- **A retried create tells its fate**, for every budget and every sequence of attempts, exactly
    unless the last permitted attempt is marked `notApplied` after an earlier one was applied. -/
theorem retry_fate_kept_iff (N : NumberText) (retries : Option JsNumber) (fn : Nat → Attempt α) :
    FateKept N retries fn ↔
      ∀ budget, retryBudget ⟨retries, true⟩ = some budget → ¬ MarkAfterApplied budget fn := by
  rw [fateKept_iff]
  constructor
  · rintro h budget hbudget ⟨⟨hspent, r, hlast, hmark⟩, i, hi, happ⟩
    have hrun : retryStorageCall N ⟨retries, true⟩ fn = .error r.error := by
      simp only [retryStorageCall, hbudget]
      exact loop_applied happ budget 0 false hspent (Nat.zero_le i) (by omega) hlast
    have hn : r.error.isNotApplied = true := by
      rw [Err.isNotApplied_eq, hmark, Bool.or_true]
    have hmade : i < attemptsOf ⟨retries, true⟩ fn := by
      simp only [attemptsOf, hbudget, attemptsMade_spent hspent]
      omega
    rw [h _ hrun hn i hmade] at happ
    cases happ
  · intro h e hrun hn i hi
    cases hbudget : retryBudget ⟨retries, true⟩ with
    | none =>
      simp only [attemptsOf, hbudget] at hi
      omega
    | some budget =>
      simp only [retryStorageCall, hbudget] at hrun
      simp only [attemptsOf, hbudget] at hi
      rcases loop_fate budget 0 false (fun _ j hj => absurd hj (Nat.not_lt_zero j)) hrun hn with
        hnone | hmarked
      · exact hnone i (by omega)
      · obtain ⟨hspent, r, hlast, hmark⟩ := hmarked
        rw [attemptsMade_spent hspent] at hi
        rcases Nat.lt_succ_iff_lt_or_eq.mp hi with hlt | rfl
        · by_contra happ
          exact h budget hbudget ⟨⟨hspent, r, hlast, hmark⟩, i, hlt, by simpa using happ⟩
        · rw [Nat.zero_add] at hlast
          apply (fn i).not_applied_of_isNotApplied hlast
          rw [Err.isNotApplied_eq, hmark, Bool.or_true]

/-- The response to a create that landed is lost. -/
def lostResponse : Attempt Unit where
  outcome := .error ⟨.mk .networkError "PUT log/0.json: 502", false⟩
  applied := true
  resolved _ h := by cases h
  refused r h hr := by
    cases h
    cases hr

/-- An attempt that says of itself that it was not applied. -/
def markedAttempt : Attempt Unit where
  outcome := .error ⟨.baerly .networkError "PUT log/0.json: 503" none true, false⟩
  applied := false
  resolved _ h := by cases h
  refused _ _ _ := rfl

def lostThenMarked : Nat → Attempt Unit
  | 0 => lostResponse
  | _ + 1 => markedAttempt

/-- One retry: the first attempt lands, the second is marked, and so is the call. -/
theorem retry_reports_landed_create_as_unapplied :
    ¬ ∀ (N : NumberText) (retries : Option JsNumber) (fn : Nat → Attempt Unit),
      FateKept N retries fn := by
  intro h
  have hfate := h integerText (some (JsNumber.ofNat 1)) lostThenMarked
  have hsafe : (JsNumber.ofNat 1).safeNat? = some 1 := JsNumber.safeNat?_iff.mpr ⟨rfl, by decide⟩
  have hbudget : retryBudget ⟨some (JsNumber.ofNat 1), true⟩ = some 1 := hsafe
  have hrun : retryStorageCall integerText ⟨some (JsNumber.ofNat 1), true⟩ lostThenMarked =
      .error (.baerly .networkError "PUT log/0.json: 503" none true) := by
    simp only [retryStorageCall, hbudget]
    rfl
  have hmade : 0 < attemptsOf ⟨some (JsNumber.ofNat 1), true⟩ lostThenMarked := by
    simp only [attemptsOf, hbudget]
    decide
  cases hfate.1 _ hrun (Or.inr rfl) 0 hmade

end Baerly
