import Baerly.Adapters
import Baerly.Verify.Retry

/-
  The adapters read a store's answers the way they are meant.

  SPEC: an attempt that resolves was applied, a conflict means that the precondition was false, and only
  a request that was turned away is rejected with `AccessDenied`, `InvalidConfig` or as a throttle.  No
  adapter marks an attempt `notApplied` itself; that mark is the loop's.
-/

namespace Baerly

/-- What an adapter makes of an attempt agrees with what the store did. -/
structure Adapter.Truthful (A : Adapter) : Prop where
  resolved : ∀ {c r h a d}, A.attempt c r h = .ok a → A.settle c r a = .ok d →
    A.verdict r h = .applied
  settled : ∀ {c r h a e}, A.attempt c r h = .ok a → A.settle c r a = .error e →
    A.verdict r h = .refused ∧ ∃ m, e = .mk .writeConflict m
  conflict : ∀ {c r h x}, A.attempt c r h = .error x → x.error.isWriteConflict = true →
    A.verdict r h = .refused ∧ ∃ m, x.error = .mk .writeConflict m
  certain : ∀ {c r h x}, A.attempt c r h = .error x →
    x.error.isDefinitiveCreateRejection = true ∨ x.isThrottled = true → A.verdict r h = .turnedAway
  unmarked : ∀ {c r h x}, A.attempt c r h = .error x → x.error.isCreateNotApplied = false

/-! ## HTTP -/

namespace Http

variable {parseS3Error : ParseS3Error} {res : Response} {verb : String} {key : Key}

/-- One case for each way a rejection is labelled. -/
theorem mapStorageError_cases (parseS3Error : ParseS3Error) (res : Response) (verb : String)
    (key : Key) :
    (res.status = 403 ∧ ∃ m, mapStorageError parseS3Error res verb key = ⟨.mk .accessDenied m, false⟩) ∨
    (∃ m, mapStorageError parseS3Error res verb key = ⟨.other m, false⟩) ∨
    (∃ m body, res.text = .ok body ∧ mapStorageError parseS3Error res verb key =
      ⟨.mk .networkError m, isThrottle parseS3Error res.status body⟩) ∨
    ∃ m, mapStorageError parseS3Error res verb key = ⟨.mk .invalidResponse m, false⟩ := by
  unfold mapStorageError
  by_cases h403 : res.status = 403
  · rw [if_pos h403]
    exact Or.inl ⟨h403, _, rfl⟩
  · rw [if_neg h403]
    cases htext : res.text with
    | error message => exact Or.inr (Or.inl ⟨message, rfl⟩)
    | ok body =>
      dsimp only
      split
      · exact Or.inr (Or.inr (Or.inl ⟨_, body, rfl, rfl⟩))
      · exact Or.inr (Or.inr (Or.inr ⟨_, rfl⟩))

/-- The general table of errors never makes a conflict. -/
theorem mapStorageError_not_conflict :
    (mapStorageError parseS3Error res verb key).error.isWriteConflict = false := by
  rcases mapStorageError_cases parseS3Error res verb key with
    ⟨-, m, h⟩ | ⟨m, h⟩ | ⟨m, body, -, h⟩ | ⟨m, h⟩ <;> rw [h] <;> rfl

/-- Nor does it mark an error as not applied: only the retry loop does. -/
theorem mapStorageError_unmarked :
    (mapStorageError parseS3Error res verb key).error.isCreateNotApplied = false := by
  rcases mapStorageError_cases parseS3Error res verb key with
    ⟨-, m, h⟩ | ⟨m, h⟩ | ⟨m, body, -, h⟩ | ⟨m, h⟩ <;> rw [h] <;> rfl

/-- A throttled request was turned away. -/
theorem verdict_throttle {verb : WireVerb} {body : String} (htext : res.text = .ok body)
    (h : isThrottle parseS3Error res.status body = true) :
    Http.verdict parseS3Error verb res = .turnedAway := by
  unfold isThrottle at h
  unfold Http.verdict
  rcases of_decide_eq_true h with h429 | ⟨h503, hslow⟩
  · rw [if_pos (Or.inr h429)]
  · rw [if_neg (by omega), if_pos ⟨h503, by rw [htext]; exact hslow⟩]

/-- A rejection that proves something was answered in front of the store. -/
theorem mapStorageError_certain {wire : WireVerb}
    (h : (mapStorageError parseS3Error res verb key).error.isDefinitiveCreateRejection = true ∨
      (mapStorageError parseS3Error res verb key).isThrottled = true) :
    Http.verdict parseS3Error wire res = .turnedAway := by
  rcases mapStorageError_cases parseS3Error res verb key with
    ⟨h403, m, heq⟩ | ⟨m, heq⟩ | ⟨m, body, htext, heq⟩ | ⟨m, heq⟩
  · unfold Http.verdict
    rw [if_pos (Or.inl h403)]
  · rw [heq] at h
    rcases h with h | h <;> cases h
  · rw [heq] at h
    rcases h with h | h
    · cases h
    · exact verdict_throttle htext h
  · rw [heq] at h
    rcases h with h | h <;> cases h

/-- A success was applied. -/
theorem verdict_success {wire : WireVerb} (h : res.status = 200 ∨ res.status = 204) :
    Http.verdict parseS3Error wire res = .applied := by
  unfold Http.verdict
  rw [if_neg (by omega), if_neg (by omega), if_pos h]

/-- A failed precondition was refused. -/
theorem verdict_precondition {condition : Precondition} (h : res.status = 412) :
    Http.verdict parseS3Error (.put condition) res = .refused := by
  unfold Http.verdict
  rw [if_neg (by omega), if_neg (by omega), if_neg (by omega)]
  dsimp only
  rw [if_pos h]

/-- Replacing what is not there was refused, and deleting it is done. -/
theorem verdict_missing (h : res.status = 404) :
    Http.verdict parseS3Error (.put .ifMatch) res = .refused ∧
      Http.verdict parseS3Error .delete res = .applied := by
  unfold Http.verdict
  constructor
  · rw [if_neg (by omega), if_neg (by omega), if_neg (by omega)]
    dsimp only
    rw [if_neg (by omega), if_pos ⟨h, rfl⟩]
  · rw [if_neg (by omega), if_neg (by omega), if_neg (by omega)]
    dsimp only
    rw [if_pos h]

/-! ## One attempt -/

/-- The rejections of an attempt, each with what the answer to it says. -/
structure Rejects (verdict : Verdict) (x : Rejection) : Prop where
  conflict : x.error.isWriteConflict = true → verdict = .refused ∧ ∃ m, x.error = .mk .writeConflict m
  certain : x.error.isDefinitiveCreateRejection = true ∨ x.isThrottled = true → verdict = .turnedAway
  unmarked : x.error.isCreateNotApplied = false

/-- **The general table tells the truth**, for every status. -/
theorem rejects_mapped {wire : WireVerb} :
    Rejects (Http.verdict parseS3Error wire res) (mapStorageError parseS3Error res verb key) where
  conflict h := by rw [mapStorageError_not_conflict] at h; cases h
  certain := mapStorageError_certain
  unmarked := mapStorageError_unmarked

theorem rejects_conflict {m : String} : Rejects .refused ⟨.mk .writeConflict m, false⟩ where
  conflict _ := ⟨rfl, m, rfl⟩
  certain h := by rcases h with h | h <;> cases h
  unmarked := rfl

/-- A rejection that proves nothing. -/
theorem rejects_plain {verdict : Verdict} {code : Code} {m : String}
    (h : code = .networkError ∨ code = .invalidResponse) : Rejects verdict ⟨.mk code m, false⟩ := by
  refine ⟨fun hc => ?_, fun hc => ?_, ?_⟩
  · rcases h with rfl | rfl <;> cases hc
  · rcases h with rfl | rfl <;> rcases hc with hc | hc <;> cases hc
  · rcases h with rfl | rfl <;> rfl

/-- A request that could not be signed was never sent. -/
theorem rejects_unsigned {e : SignError} : Rejects .turnedAway ⟨e.toErr, false⟩ := by
  refine ⟨fun hc => ?_, fun _ => rfl, ?_⟩
  · cases e <;> cases hc
  · cases e <;> rfl

/-- What an attempt comes to, beside what the answer to it says. -/
structure Reads {α : Type} (verdict : Verdict) (x : Except Rejection α) : Prop where
  resolved : ∀ a, x = .ok a → verdict = .applied
  rejected : ∀ r, x = .error r → Rejects verdict r

/-- An attempt may resolve if the store applied it. -/
theorem reads_ok {α : Type} {verdict : Verdict} {a : α} (h : verdict = .applied) :
    Reads verdict (.ok a) where
  resolved _ _ := h
  rejected r hr := by cases hr

/-- It may reject with an error that agrees with the store. -/
theorem reads_error {α : Type} {verdict : Verdict} {r : Rejection} (h : Rejects verdict r) :
    Reads verdict (.error r : Except Rejection α) where
  resolved a ha := by cases ha
  rejected r' hr := by
    cases hr
    exact h

/-- Passing the result on changes nothing. -/
theorem Reads.map {α β : Type} {f : α → β} {verdict : Verdict} {x : Except Rejection α}
    (h : Reads verdict x) : Reads verdict (x.map f) := by
  cases x with
  | ok a => exact reads_ok (h.resolved a rfl)
  | error r => exact reads_error (h.rejected r rfl)

/-- A PUT resolves only on success, and then with a version or an error that says nothing. -/
theorem putResult_reads {condition : Precondition} {header : String} {version : Option JsString}
    (h : res.status = 200 ∨ res.status = 204) :
    Reads (Http.verdict parseS3Error (.put condition) res) (putResult header key version res) := by
  cases version with
  | some etag => exact reads_ok (verdict_success h)
  | none => exact reads_error (rejects_plain (Or.inr rfl))

/-- **S3's PUT** agrees with its answer. -/
theorem s3Put_reads {condition : Precondition} {ifMatch : String} :
    Reads (Http.verdict parseS3Error (.put condition) res)
      (s3Put parseS3Error key condition ifMatch res) := by
  unfold s3Put
  split
  next h412 =>
    rw [verdict_precondition h412]
    exact reads_error rejects_conflict
  next =>
    split
    next => exact reads_error (rejects_plain (Or.inl rfl))
    next =>
      split
      next h404 =>
        rw [h404.2, (verdict_missing h404.1).1]
        exact reads_error rejects_conflict
      next =>
        split
        next => exact reads_error rejects_mapped
        next hstatus => exact putResult_reads (by omega)

/-- **GCS's PUT** agrees with its answer. -/
theorem gcsPut_reads {condition : Precondition} :
    Reads (Http.verdict parseS3Error (.put condition) res) (gcsPut parseS3Error key res) := by
  unfold gcsPut
  split
  next h412 =>
    rw [verdict_precondition h412]
    exact reads_error rejects_conflict
  next =>
    split
    next => exact reads_error rejects_mapped
    next hstatus => exact putResult_reads (by omega)

/-- **A DELETE** agrees with its answer, over both. -/
theorem delete_reads :
    Reads (Http.verdict parseS3Error .delete res) (Http.delete parseS3Error key res) := by
  unfold Http.delete
  split
  next => exact reads_error rejects_mapped
  next hstatus =>
    by_cases h404 : res.status = 404
    · exact reads_ok (verdict_missing h404).2
    · exact reads_ok (verdict_success (by omega))

/-- What is sent, and what is made of the response to it. -/
theorem dispatch_reads {α : Type} {wire : WireVerb} {heard : Exchange}
    {read : Response → Except Rejection α}
    (hread : ∀ res, Reads (Http.verdict parseS3Error wire res) (read res)) :
    Reads (exchangeVerdict parseS3Error wire heard) ((dispatch heard).bind read) := by
  cases heard with
  | unsigned e => exact reads_error rejects_unsigned
  | unreachable message => exact reads_error (rejects_plain (Or.inl rfl))
  | answered res => exact hread res

end Http

/-- An adapter whose attempts read their answers, and that does nothing behind the loop. -/
theorem truthful_of_reads {A : Adapter} (hsettle : ∀ c r a e, A.settle c r a ≠ .error e)
    (hread : ∀ c r h, Http.Reads (A.verdict r h) (A.attempt c r h)) : A.Truthful where
  resolved := fun {c r h a _} ha _ => (hread c r h).resolved a ha
  settled := fun {c r _ a e} _ he => absurd he (hsettle c r a e)
  conflict := fun {c r h x} hx => ((hread c r h).rejected x hx).conflict
  certain := fun {c r h x} hx => ((hread c r h).rejected x hx).certain
  unmarked := fun {c r h x} hx => ((hread c r h).rejected x hx).unmarked

/-- So the S3 adapter tells the truth. -/
theorem truthful_s3Storage (parseS3Error : Http.ParseS3Error) (ifMatch : Req → String)
    (retries : Option JsNumber) : (s3Storage parseS3Error ifMatch retries).Truthful := by
  refine truthful_of_reads (fun _ _ _ _ h => by cases h) fun c r heard => ?_
  dsimp only [s3Storage]
  cases r.wireVerb with
  | put condition => exact Http.dispatch_reads fun res => Http.s3Put_reads.map
  | delete => exact Http.dispatch_reads fun res => Http.delete_reads.map

/-- So does the GCS adapter. -/
theorem truthful_gcsStorage (parseS3Error : Http.ParseS3Error) (retries : Option JsNumber) :
    (gcsStorage parseS3Error retries).Truthful := by
  refine truthful_of_reads (fun _ _ _ _ h => by cases h) fun c r heard => ?_
  dsimp only [gcsStorage]
  cases r.wireVerb with
  | put condition => exact Http.dispatch_reads fun res => Http.gcsPut_reads.map
  | delete => exact Http.dispatch_reads fun res => Http.delete_reads.map

/-! ## The R2 binding -/

/-- What the binding resolved with is passed on; what it rejected with is sorted by its text. -/
theorem callBinding_cases (op : String) (call : R2.BindingCall) :
    (∃ object, call = .resolved object ∧ R2.callBinding op call = .ok object) ∨
      ∃ message r, call = .rejected message ∧ R2.callBinding op call = .error r ∧
        ∀ verb, Http.Rejects (R2.verdict verb call) r := by
  cases call with
  | resolved object => exact Or.inl ⟨object, rfl, rfl⟩
  | rejected message =>
    unfold R2.callBinding R2.verdict
    dsimp only
    split
    next haccess =>
      refine Or.inr ⟨message, _, rfl, rfl, fun verb => ⟨fun hc => (by cases hc), fun _ => ?_, rfl⟩⟩
      exact if_pos (Or.inl haccess)
    next =>
      split
      next hbucket =>
        refine Or.inr ⟨message, _, rfl, rfl, fun verb => ⟨fun hc => (by cases hc), fun _ => ?_, rfl⟩⟩
        exact if_pos (Or.inr hbucket)
      next => exact Or.inr ⟨message, _, rfl, rfl, fun verb => Http.rejects_plain (Or.inl rfl)⟩

/-- The answer to a `put` tells whether its precondition held. -/
theorem settle_reads {c : Collection} {r : Req} {object : Option StoragePutResult} :
    (∀ d, R2.settle c r object = .ok d → R2.verdict r.wireVerb (.resolved object) = .applied) ∧
      ∀ e, R2.settle c r object = .error e → R2.verdict r.wireVerb (.resolved object) = .refused ∧
        ∃ m, e = .mk .writeConflict m := by
  unfold R2.settle R2.verdict
  cases r.wireVerb with
  | put condition =>
    cases object with
    | some result => exact ⟨fun _ _ => rfl, fun e he => by cases he⟩
    | none =>
      refine ⟨fun d hd => (by cases hd), fun e he => ?_⟩
      cases he
      exact ⟨if_neg (fun h => by cases h), _, rfl⟩
  | delete =>
    refine ⟨fun _ _ => ?_, fun e he => by cases he⟩
    cases object with
    | some result => rfl
    | none => exact if_pos rfl

/-- And the R2 binding. -/
theorem truthful_r2BindingStorage : r2BindingStorage.Truthful := by
  have hresolved : ∀ {c r h a}, r2BindingStorage.attempt c r h = .ok a → h = .resolved a := by
    intro c r h a ha
    rcases callBinding_cases (R2.operation c r) h with ⟨object, rfl, hok⟩ | ⟨message, x, -, herr, -⟩
    · cases hok.symm.trans ha
      rfl
    · cases herr.symm.trans ha
  have hrejected : ∀ {c r h x}, r2BindingStorage.attempt c r h = .error x →
      Http.Rejects (r2BindingStorage.verdict r h) x := by
    intro c r h x hx
    rcases callBinding_cases (R2.operation c r) h with ⟨object, rfl, hok⟩ | ⟨message, x', -, herr, hx'⟩
    · cases hok.symm.trans hx
    · cases herr.symm.trans hx
      exact hx' r.wireVerb
  refine ⟨?_, ?_, fun hx => (hrejected hx).conflict, fun hx => (hrejected hx).certain,
    fun hx => (hrejected hx).unmarked⟩
  · intro c r h a d ha hd
    rw [hresolved ha]
    exact settle_reads.1 d hd
  · intro c r h a e ha he
    rw [hresolved ha]
    exact settle_reads.2 e he

/-- **Every adapter is truthful.** -/
theorem truthful_backend (b : Backend) : b.adapter.Truthful := by
  cases b with
  | s3 parseS3Error ifMatch retries => exact truthful_s3Storage parseS3Error ifMatch retries
  | gcs parseS3Error retries => exact truthful_gcsStorage parseS3Error retries
  | r2 => exact truthful_r2BindingStorage

end Baerly
