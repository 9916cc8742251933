import Baerly.Transport
import Baerly.Verify.Adapters
import Baerly.Verify.Safety

/-
  The system over an adapter is the system over the bucket.

  SPEC: a create tells its fate on the wire (`create_tells_its_fate`), and every run over S3, GCS or
  R2 is a run of `Baerly.System` (`adapters_refine_bucket`): a transfer is one message, delivered once
  for each of its requests that is served.

  CRUX: `Sound`.  A transfer that is still certain has turned-away requests only, so a rejection that
  leaves the loop as a verdict says so of every request of the transfer.

  The loop keeps that promise for creates.  Another write may be reported as denied after an earlier
  request of it landed, which the bucket never does; such runs are left out (`Wire.Plain`).
-/

namespace Baerly

open Async

/-! ## The loop, turn by turn -/

section Loop

variable {α : Type} {cc u : Bool} {left : Nat} {outcome : Except Rejection α}

/-- Everything a turn can be. -/
theorem retryTurn_cases (cc : Bool) (left : Nat) (u : Bool) (outcome : Except Rejection α) :
    (∃ a, outcome = .ok a ∧ retryTurn cc left u outcome = .stop (.ok a)) ∨
    (∃ r, outcome = .error r ∧ r.isPermanent = true ∧
      retryTurn cc left u outcome = .stop (.error (permanentFailure cc u r.error))) ∨
    (∃ r, outcome = .error r ∧ r.isPermanent = false ∧
      retryTurn cc left u outcome = .stop (.error (lastFailure cc (u || !r.isThrottled) r.error))) ∨
    ∃ r left', outcome = .error r ∧ left = left' + 1 ∧
      retryTurn cc left u outcome = .again left' (u || !r.isThrottled) := by
  cases outcome with
  | ok a => exact Or.inl ⟨a, rfl, rfl⟩
  | error r =>
    simp only [retryTurn]
    cases hp : r.isPermanent with
    | true => exact Or.inr (Or.inl ⟨r, rfl, hp, if_pos rfl⟩)
    | false =>
      rw [if_neg (by exact Bool.false_ne_true)]
      cases left with
      | zero => exact Or.inr (Or.inr (Or.inl ⟨r, rfl, hp, rfl⟩))
      | succ left' => exact Or.inr (Or.inr (Or.inr ⟨r, left', rfl, rfl, rfl⟩))

/-- What a turn stops with: a result, a verdict of its own, or its last failure. -/
theorem retryTurn_stop {r : Except Err α} (h : retryTurn cc left u outcome = .stop r) :
    (∃ a, outcome = .ok a ∧ r = .ok a) ∨
    ∃ rej e, outcome = .error rej ∧ r = .error e ∧ (e = permanentFailure cc u rej.error ∨
      rej.isPermanent = false ∧ e = lastFailure cc (u || !rej.isThrottled) rej.error) := by
  rcases retryTurn_cases cc left u outcome with
    ⟨a, ha, heq⟩ | ⟨rej, hrej, -, heq⟩ | ⟨rej, hrej, hperm, heq⟩ | ⟨rej, left', -, -, heq⟩ <;>
    rw [heq] at h <;> cases h
  · exact Or.inl ⟨a, ha, rfl⟩
  · exact Or.inr ⟨rej, _, hrej, rfl, Or.inl rfl⟩
  · exact Or.inr ⟨rej, _, hrej, rfl, Or.inr ⟨hperm, rfl⟩⟩

/-- There is another turn after a failure that may pass. -/
theorem retryTurn_again {left' : Nat} {u' : Bool}
    (h : retryTurn cc left u outcome = .again left' u') :
    ∃ rej, outcome = .error rej ∧ u' = (u || !rej.isThrottled) := by
  rcases retryTurn_cases cc left u outcome with
    ⟨a, -, heq⟩ | ⟨rej, -, -, heq⟩ | ⟨rej, -, -, heq⟩ | ⟨rej, _, hrej, -, heq⟩ <;>
    rw [heq] at h <;> cases h
  exact ⟨rej, hrej, rfl⟩

/-- The loop of `retryStorageCall` takes one turn after the other. -/
theorem retryLoop_turn (fn : Nat → Attempt α) (attempt : Nat) :
    retryLoop cc fn left attempt u = (retryTurn cc left u (fn attempt).outcome).andThen
      fun left u => retryLoop cc fn left (attempt + 1) u := by
  cases left with
  | zero =>
    rw [retryLoop]
    cases (fn attempt).outcome with
    | ok a => rfl
    | error r =>
      simp only [retryTurn]
      split <;> rfl
  | succ left =>
    rw [retryLoop]
    cases (fn attempt).outcome with
    | ok a => rfl
    | error r =>
      simp only [retryTurn]
      split <;> rfl

/-- A budget that makes no sense is refused before any attempt. -/
theorem retryStorageCall_refused {N : NumberText} {opts : StorageRetryOptions} {fn : Nat → Attempt α}
    (h : retryBudget opts = none) :
    retryStorageCall N opts fn = .error (retriesRefused N opts.retries) := by
  unfold retryStorageCall
  rw [h]
  rfl

/-- A conflict is rethrown as it is. -/
theorem permanentFailure_conflict {e : Err}
    (h : (permanentFailure cc u e).isWriteConflict = true) :
    e.isWriteConflict = true ∧ permanentFailure cc u e = e := by
  unfold permanentFailure at h ⊢
  split at h
  · cases h
  next hif => exact ⟨h, if_neg hif⟩

/-- Also on the last attempt. -/
theorem lastFailure_conflict {e : Err} :
    (lastFailure cc u e).isWriteConflict = e.isWriteConflict := by
  unfold lastFailure
  cases e with
  | baerly code m id na =>
    dsimp only
    split <;> cases code <;> rfl
  | abort => rfl
  | other m => rfl

/-- No conflict is retried. -/
theorem not_conflict_of_retried {r : Rejection} (h : r.isPermanent = false) :
    r.error.isWriteConflict = false := by
  obtain ⟨e, throttled⟩ := r
  cases e with
  | baerly code m id na => cases code <;> first | rfl | cases h
  | abort => rfl
  | other m => rfl

end Loop

/-! ## Requests of a transfer -/

section Sendings

variable {before : List Sending} {s : Sending}

/-- The last sending is the one that is heard of. -/
theorem modify_last (f : Sending → Sending) :
    (before ++ [s]).modify ((before ++ [s]).length - 1) f = before ++ [f s] := by
  rw [List.length_append, List.length_singleton, Nat.add_sub_cancel]
  induction before with
  | nil => rfl
  | cons b before ih =>
    rw [List.cons_append, List.length_cons, List.modify_succ_cons, ih]
    rfl

/-- Serving a request sends none away. -/
theorem flags_serve (xs : List Sending) (j : Nat) (a : Bool) :
    (xs.modify j fun s => { s with served := some a }).map (·.turnedAway) = xs.map (·.turnedAway) := by
  induction xs generalizing j with
  | nil => cases j <;> rfl
  | cons x xs ih =>
    cases j with
    | zero => rfl
    | succ j =>
      rw [List.modify_succ_cons, List.map_cons, List.map_cons, ih]

/-- A change of one sending leaves the others. -/
theorem mem_modify {xs : List Sending} {j : Nat} {f : Sending → Sending} {s : Sending}
    (h : s ∈ xs.modify j f) : s ∈ xs ∨ ∃ b, xs[j]? = some b ∧ s = f b := by
  induction xs generalizing j with
  | nil => cases j <;> cases h
  | cons x xs ih =>
    cases j with
    | zero =>
      rcases List.mem_cons.mp h with rfl | htail
      · exact Or.inr ⟨x, rfl, rfl⟩
      · exact Or.inl (List.mem_cons_of_mem _ htail)
    | succ j =>
      rw [List.modify_succ_cons] at h
      rcases List.mem_cons.mp h with rfl | htail
      · exact Or.inl List.mem_cons_self
      · rcases ih htail with hold | hnew
        · exact Or.inl (List.mem_cons_of_mem _ hold)
        · exact Or.inr hnew

/-- Which requests were served, after one more was. -/
theorem any_serve {xs : List Sending} {j : Nat} {s : Sending} (hs : xs[j]? = some s)
    (hserved : s.served = none) (a b : Bool) :
    (xs.modify j fun s => { s with served := some a }).any (·.served = some b) =
      (xs.any (·.served = some b) || decide (a = b)) := by
  induction xs generalizing j with
  | nil => cases hs
  | cons x xs ih =>
    cases j with
    | zero =>
      cases hs
      simp only [List.modify_zero_cons, List.any_cons, hserved, reduceCtorEq, decide_false,
        Bool.false_or, Option.some.injEq]
      rw [Bool.or_comm]
    | succ j =>
      rw [List.modify_succ_cons, List.any_cons, List.any_cons, ih hs, Bool.or_assoc]

end Sendings

/-! ## What a transfer knows -/

section Sound

variable {A : Adapter} {N : NumberText} {c : Collection} {x : Transfer A} {i j : Nat}

/-- Which requests of a transfer were turned away. -/
def Transfer.flags (x : Transfer A) : List Bool := x.sendings.map (·.turnedAway)

/-- What a transfer ended with agrees with what became of its requests. -/
structure Transfer.Sound (x : Transfer A) : Prop where
  turned : ∀ s ∈ x.sendings, s.turnedAway = true → s.served = none
  /-- The request it waits for is open; a create that is certain had the others turned away. -/
  waiting : ∀ left u, x.progress = .trying left u → ∃ before, x.flags = before ++ [false] ∧
    (x.req.conditionalCreate = true → u = false → ∀ b ∈ before, b = true)
  acked : ∀ d, x.progress = .ended (.ok d) → x.landed = true
  conflict : ∀ e, x.progress = .ended (.error e) → e.isWriteConflict = true →
    x.refused = true ∧ ∃ m, e = .mk .writeConflict m
  certain : x.req.conditionalCreate = true → ∀ e, x.progress = .ended (.error e) →
    e.isNotApplied = true → ∀ b ∈ x.flags, b = true

/-- A transfer begins with its first attempt, unless its budget is refused. -/
theorem Transfer.begin_cases (A : Adapter) (N : NumberText) (t : Nat) (r : Req) :
    (∃ budget, retryBudget ⟨A.retries, r.conditionalCreate⟩ = some budget ∧
      Transfer.begin A N t r = ⟨t, r, [.fresh], [], .trying budget false⟩) ∨
    (retryBudget ⟨A.retries, r.conditionalCreate⟩ = none ∧
      Transfer.begin A N t r = ⟨t, r, [], [], .ended (.error (retriesRefused N A.retries))⟩) := by
  unfold Transfer.begin
  cases h : retryBudget ⟨A.retries, r.conditionalCreate⟩ with
  | some budget => exact Or.inl ⟨budget, rfl, rfl⟩
  | none => exact Or.inr ⟨rfl, rfl⟩

/-- There is nothing to be wrong about at the start. -/
theorem sound_begin (A : Adapter) (N : NumberText) (t : Nat) (r : Req) :
    (Transfer.begin A N t r).Sound := by
  rcases Transfer.begin_cases A N t r with ⟨budget, -, heq⟩ | ⟨-, heq⟩
  · rw [heq]
    refine ⟨fun s hs ht => ?_, fun left u _ => ⟨[], rfl, fun _ _ b hb => absurd hb List.not_mem_nil⟩,
      fun d h => (by cases h), fun e h => (by cases h), fun _ e h => (by cases h)⟩
    obtain rfl := List.mem_singleton.mp hs
    cases ht
  · rw [heq]
    refine ⟨fun s hs => absurd hs List.not_mem_nil, fun left u h => (by cases h),
      fun d h => (by cases h), fun e h hc => ?_, fun _ e _ _ b hb => absurd hb List.not_mem_nil⟩
    cases h
    cases hc

/-- A request that is applied has landed. -/
theorem landed_serve {s : Sending} (hs : x.sendings[j]? = some s) (hserved : s.served = none)
    (a : Bool) : (x.serve j a).landed = (x.landed || a) := by
  have hany := any_serve hs hserved a true
  cases a <;> exact hany

/-- One that is not was refused. -/
theorem refused_serve {s : Sending} (hs : x.sendings[j]? = some s) (hserved : s.served = none)
    (a : Bool) : (x.serve j a).refused = (x.refused || !a) := by
  have hany := any_serve hs hserved a false
  cases a <;> exact hany

/-- The store may serve what was not turned away. -/
theorem Transfer.Sound.serve (h : x.Sound) {s : Sending} (hs : x.sendings[j]? = some s)
    (hserved : s.served = none) (hopen : s.turnedAway = false) (a : Bool) : (x.serve j a).Sound := by
  have hflags : (x.serve j a).flags = x.flags := flags_serve x.sendings j a
  refine ⟨?_, ?_, ?_, ?_, ?_⟩
  · intro s' hs' hturned
    rcases mem_modify hs' with hold | ⟨b, hb, rfl⟩
    · exact h.turned s' hold hturned
    · rw [hs] at hb
      cases hb
      exact absurd hturned (by rw [hopen]; exact Bool.false_ne_true)
  · rw [hflags]
    exact h.waiting
  · intro d hd
    rw [landed_serve hs hserved, h.acked d hd, Bool.true_or]
  · intro e he hc
    obtain ⟨hrefused, hm⟩ := h.conflict e he hc
    exact ⟨by rw [refused_serve hs hserved, hrefused, Bool.true_or], hm⟩
  · rw [hflags]
    exact h.certain

/-- Hearing of a request serves none. -/
theorem any_hear {xs next : List Sending} {turnedAway b : Bool}
    (hnext : next.any (·.served = some b) = false) :
    ((xs.modify (xs.length - 1) fun s => { s with turnedAway := turnedAway }) ++ next).any
      (·.served = some b) = xs.any (·.served = some b) := by
  rw [List.any_append, hnext, Bool.or_false]
  generalize xs.length - 1 = k
  induction xs generalizing k with
  | nil => cases k <;> rfl
  | cons y xs ih =>
    cases k with
    | zero => rfl
    | succ k => rw [List.modify_succ_cons, List.any_cons, List.any_cons, ih]

/-- A rejection that ends the loop as a verdict, when nothing was uncertain before it. -/
theorem certain_of_verdict (hA : A.Truthful) {r : Req} {heard : A.Heard} {x : Rejection}
    (hx : A.attempt c r heard = .error x) {u : Bool} {e : Err}
    (he : e = permanentFailure true u x.error ∨
      x.isPermanent = false ∧ e = lastFailure true (u || !x.isThrottled) x.error)
    (hn : e.isNotApplied = true) : u = false ∧ A.verdict r heard = .turnedAway := by
  rcases he with rfl | ⟨hp, rfl⟩
  · obtain ⟨hu, hnot⟩ := permanentFailure_isNotApplied hn
    rw [Err.isNotApplied_eq, hA.unmarked hx, Bool.or_false] at hnot
    exact ⟨hu, hA.certain hx (Or.inl hnot)⟩
  · cases hcertain : u || !x.isThrottled with
    | false =>
      simp only [Bool.or_eq_false_iff, Bool.not_eq_false'] at hcertain
      exact ⟨hcertain.1, hA.certain hx (Or.inr hcertain.2)⟩
    | true =>
      -- an uncertain loop passes the error on, and adapters do not mark
      rw [hcertain, lastFailure_uncertain] at hn
      have hmark := isCreateNotApplied_of_retried hp hn
      rw [hA.unmarked hx] at hmark
      cases hmark

variable {heard : A.Heard} {before : List Sending} {s : Sending}

/-- The transfer after its client heard of the last request. -/
theorem flags_hear (hx : x.sendings = before ++ [s]) (heard : A.Heard) (turnedAway : Bool)
    (p : Progress) (next : List Sending) : (x.hear heard turnedAway p next).flags =
      before.map (·.turnedAway) ++ [turnedAway] ++ next.map (·.turnedAway) := by
  unfold Transfer.flags Transfer.hear
  dsimp only
  rw [hx, modify_last, List.map_append, List.map_append]
  rfl

/-- A request that was turned away is served never. -/
theorem turned_hear (h : x.Sound) (hx : x.sendings = before ++ [s]) {turnedAway : Bool} {p : Progress}
    {next : List Sending} (hnext : ∀ y ∈ next, y = .fresh) (hs : turnedAway = true → s.served = none) :
    ∀ y ∈ (x.hear heard turnedAway p next).sendings, y.turnedAway = true → y.served = none := by
  intro y hy hturned
  unfold Transfer.hear at hy
  dsimp only at hy
  rw [hx, modify_last, List.append_assoc] at hy
  rcases List.mem_append.mp hy with hold | hlast
  · exact h.turned y (hx ▸ List.mem_append_left _ hold) hturned
  · rcases List.mem_cons.mp hlast with rfl | hfresh
    · exact hs hturned
    · rw [hnext y hfresh] at hturned
      cases hturned

/-- What a waiting transfer is made of. -/
theorem Transfer.Sound.split (h : x.Sound) {left : Nat} {u : Bool}
    (hp : x.progress = .trying left u) (hlast : x.sendings.getLast? = some s) :
    ∃ before, x.sendings = before ++ [s] ∧ s.turnedAway = false ∧
      (x.req.conditionalCreate = true → u = false → ∀ b ∈ before.map (·.turnedAway), b = true) := by
  obtain ⟨before, hx⟩ := List.getLast?_eq_some_iff.mp hlast
  obtain ⟨flags, hflags, hcertain⟩ := h.waiting left u hp
  unfold Transfer.flags at hflags
  rw [hx, List.map_append, List.map_singleton] at hflags
  obtain ⟨hbefore, hopen⟩ := List.append_inj' hflags rfl
  exact ⟨before, hx, (List.cons.inj hopen).1, hbefore ▸ hcertain⟩

/-- What the client heard of the last request is true of it. -/
theorem admits_served {verdict : Verdict} (h : verdict.admits s = true) :
    (verdict = .applied → s.served = some true) ∧ (verdict = .refused → s.served = some false) ∧
      (verdict = .turnedAway → s.served = none) := by
  cases verdict <;> simp_all [Verdict.admits]

/-- What became of the last sending is on record. -/
theorem any_last {b : Bool} (hx : x.sendings = before ++ [s]) (hs : s.served = some b) :
    x.sendings.any (·.served = some b) = true := by
  rw [hx, List.any_append, List.any_cons, hs, decide_eq_true rfl, Bool.true_or, Bool.or_true]

/-- **The last answer**: what the call ends with agrees with all that was sent. -/
theorem Transfer.Sound.stop (hA : A.Truthful) (h : x.Sound) {left : Nat} {u : Bool}
    (hp : x.progress = .trying left u) (hlast : x.sendings.getLast? = some s)
    (hadmits : (A.verdict x.req heard).admits s = true) {r : Except Err A.Answer}
    (hturn : retryTurn x.req.conditionalCreate left u (A.attempt c x.req heard) = .stop r) :
    (x.hear heard (decide (A.verdict x.req heard = .turnedAway)) (.ended (r.bind (A.settle c x.req)))
      []).Sound := by
  obtain ⟨before, hx, -, hcertain⟩ := h.split hp hlast
  obtain ⟨happlied, hrefused, hturned⟩ := admits_served hadmits
  have hany : ∀ {b turnedAway p}, s.served = some b →
      (x.hear heard turnedAway p []).sendings.any (·.served = some b) = true := by
    intro b turnedAway p hs
    exact (any_hear rfl).trans (any_last hx hs)
  have hflags := flags_hear hx heard
  have hcases := retryTurn_stop hturn
  refine ⟨turned_hear h hx (fun y hy => absurd hy List.not_mem_nil)
    (fun ht => hturned (of_decide_eq_true ht)), fun left u h => (by cases h), ?_, ?_, ?_⟩
  · intro d hd
    rcases hcases with ⟨a, ha, rfl⟩ | ⟨rej, e, -, rfl, -⟩
    · exact hany (happlied (hA.resolved ha (Progress.ended.inj hd)))
    · cases hd
  · intro e he hc
    rcases hcases with ⟨a, ha, rfl⟩ | ⟨rej, e', hrej, rfl, he'⟩
    · obtain ⟨hverdict, hm⟩ := hA.settled ha (Progress.ended.inj he)
      exact ⟨hany (hrefused hverdict), hm⟩
    · obtain rfl : e' = e := Except.error.inj (Progress.ended.inj he)
      rcases he' with rfl | ⟨hperm, rfl⟩
      -- a conflict is permanent, and passed on as the adapter raised it
      · obtain ⟨hconflict, heq⟩ := permanentFailure_conflict hc
        obtain ⟨hverdict, hm⟩ := hA.conflict hrej hconflict
        exact ⟨hany (hrefused hverdict), by rw [heq]; exact hm⟩
      · rw [lastFailure_conflict, not_conflict_of_retried hperm] at hc
        cases hc
  · intro hcc e he hn
    rcases hcases with ⟨a, ha, rfl⟩ | ⟨rej, e', hrej, rfl, he'⟩
    · obtain ⟨-, m, rfl⟩ := hA.settled ha (Progress.ended.inj he)
      cases hn
    · obtain rfl : e' = e := Except.error.inj (Progress.ended.inj he)
      replace hcc : x.req.conditionalCreate = true := hcc
      rw [hcc] at he'
      obtain ⟨hu, hverdict⟩ := certain_of_verdict hA hrej he' hn
      intro b hb
      rw [hflags, List.map_nil, List.append_nil, hverdict] at hb
      rcases List.mem_append.mp hb with hold | hnew
      · exact hcertain hcc hu b hold
      · exact (List.mem_singleton.mp hnew).trans (decide_eq_true rfl)

/-- **An answer that is retried** leaves what is known of the attempts before. -/
theorem Transfer.Sound.again (hA : A.Truthful) (h : x.Sound) {left left' : Nat} {u u' : Bool}
    (hp : x.progress = .trying left u) (hlast : x.sendings.getLast? = some s)
    (hadmits : (A.verdict x.req heard).admits s = true)
    (hturn : retryTurn x.req.conditionalCreate left u (A.attempt c x.req heard) = .again left' u') :
    (x.hear heard (decide (A.verdict x.req heard = .turnedAway))
      (.trying left' u') [.fresh]).Sound := by
  obtain ⟨before, hx, -, hcertain⟩ := h.split hp hlast
  obtain ⟨-, -, hturned⟩ := admits_served hadmits
  refine ⟨turned_hear h hx (fun y hy => List.mem_singleton.mp hy)
    (fun ht => hturned (of_decide_eq_true ht)), ?_, fun d h => (by cases h), fun e h => (by cases h),
    fun _ e h => (by cases h)⟩
  intro left₁ u₁ hp₁
  cases hp₁
  refine ⟨before.map (·.turnedAway) ++ [decide (A.verdict x.req heard = .turnedAway)],
    flags_hear hx heard _ _ _, fun hcc hu b hb => ?_⟩
  -- the loop stays certain over throttles only
  obtain ⟨rej, hrej, rfl⟩ := retryTurn_again hturn
  rw [Bool.or_eq_false_iff, Bool.not_eq_false'] at hu
  rcases List.mem_append.mp hb with hold | hnew
  · exact hcertain hcc hu.1 b hold
  · exact (List.mem_singleton.mp hnew).trans (decide_eq_true (hA.certain hrej (Or.inr hu.2)))

end Sound

/-! ## A transfer is one `retryStorageCall` -/

section Ran

variable {A : Adapter} {N : NumberText} {c : Collection} {x : Transfer A}

/-- The attempts a transfer heard of are the first ones of `fn`. -/
def Transfer.Made (c : Collection) (x : Transfer A) (fn : Nat → Attempt A.Answer) : Prop :=
  ∀ i h, x.heard[i]? = some h → (fn i).outcome = A.attempt c x.req h

/-- A transfer is where `retryStorageCall` is after those attempts. -/
structure Transfer.Ran (N : NumberText) (c : Collection) (x : Transfer A) : Prop where
  trying : ∀ fn, x.Made c fn → ∀ left u, x.progress = .trying left u →
    ∃ budget, retryBudget ⟨A.retries, x.req.conditionalCreate⟩ = some budget ∧
      retryLoop x.req.conditionalCreate fn budget 0 false =
        retryLoop x.req.conditionalCreate fn left x.heard.length u
  ended : ∀ fn, x.Made c fn → ∀ r, x.progress = .ended r →
    (retryStorageCall N ⟨A.retries, x.req.conditionalCreate⟩ fn).bind (A.settle c x.req) = r

/-- A transfer has run its retry loop from the start. -/
theorem ran_begin (A : Adapter) (N : NumberText) (c : Collection) (t : Nat) (r : Req) :
    (Transfer.begin A N t r).Ran N c := by
  rcases Transfer.begin_cases A N t r with ⟨budget, hbudget, heq⟩ | ⟨hnone, heq⟩
  · rw [heq]
    refine ⟨fun fn _ left u h => ?_, fun fn _ r h => (by cases h)⟩
    cases h
    exact ⟨budget, hbudget, rfl⟩
  · rw [heq]
    refine ⟨fun fn _ left u h => (by cases h), fun fn _ r h => ?_⟩
    cases h
    rw [retryStorageCall_refused hnone]
    rfl

/-- The loop does not see what the store does. -/
theorem Transfer.Ran.serve (h : x.Ran N c) (j : Nat) (a : Bool) : (x.serve j a).Ran N c :=
  ⟨h.trying, h.ended⟩

/-- An answer that was heard is that of its attempt. -/
theorem Transfer.Made.hear {fn : Nat → Attempt A.Answer} {heard : A.Heard} {turnedAway : Bool}
    {p : Progress} {next : List Sending} (h : (x.hear heard turnedAway p next).Made c fn) :
    x.Made c fn ∧ (fn x.heard.length).outcome = A.attempt c x.req heard := by
  refine ⟨fun i y hy => h i y ?_, h x.heard.length heard ?_⟩
  · exact (List.getElem?_append_left (List.getElem?_eq_some_iff.mp hy).1).trans hy
  · exact List.getElem?_concat_length

/-- The loop takes its turn. -/
theorem Transfer.Ran.hear (h : x.Ran N c) {left : Nat} {u : Bool} (hp : x.progress = .trying left u)
    {heard : A.Heard} {turnedAway : Bool} {p : Progress} {next : List Sending}
    (hturn : (∃ r, retryTurn x.req.conditionalCreate left u (A.attempt c x.req heard) = .stop r ∧
        p = .ended (r.bind (A.settle c x.req))) ∨
      ∃ left' u', retryTurn x.req.conditionalCreate left u (A.attempt c x.req heard) =
        .again left' u' ∧ p = .trying left' u') : (x.hear heard turnedAway p next).Ran N c := by
  have hloop : ∀ fn, (x.hear heard turnedAway p next).Made c fn →
      ∃ budget, retryBudget ⟨A.retries, x.req.conditionalCreate⟩ = some budget ∧
        retryLoop x.req.conditionalCreate fn budget 0 false =
          (retryTurn x.req.conditionalCreate left u (A.attempt c x.req heard)).andThen
            fun left u => retryLoop x.req.conditionalCreate fn left (x.heard.length + 1) u := by
    intro fn hmade
    obtain ⟨hold, hnew⟩ := hmade.hear
    obtain ⟨budget, hbudget, heq⟩ := h.trying fn hold left u hp
    refine ⟨budget, hbudget, ?_⟩
    rw [heq, retryLoop_turn, hnew]
  have hlength : (x.hear heard turnedAway p next).heard.length = x.heard.length + 1 :=
    List.length_append
  constructor
  · intro fn hmade left₁ u₁ hp₁
    obtain ⟨budget, hbudget, heq⟩ := hloop fn hmade
    refine ⟨budget, hbudget, ?_⟩
    rcases hturn with ⟨r, -, rfl⟩ | ⟨left', u', hagain, rfl⟩
    · cases hp₁
    · cases hp₁
      rw [hlength]
      exact heq.trans (by rw [hagain]; rfl)
  · intro fn hmade r₁ hp₁
    obtain ⟨budget, hbudget, heq⟩ := hloop fn hmade
    rcases hturn with ⟨r, hstop, rfl⟩ | ⟨left', u', -, rfl⟩
    · cases hp₁
      have hcall : retryStorageCall N ⟨A.retries, x.req.conditionalCreate⟩ fn = r := by
        unfold retryStorageCall
        rw [hbudget]
        exact heq.trans (by rw [hstop]; rfl)
      exact congrArg (fun y => y.bind (A.settle c x.req)) hcall
    · cases hp₁

end Ran

/-! ## Steps of the network -/

section Steps

variable {A : Adapter} {N : NumberText} {c : Collection} {w w' : Wire A}

/-- What serving a request does. -/
theorem serveStep_some {i j : Nat} (h : serveStep A i j w = some w') :
    ∃ x s a, w.transfers[i]? = some x ∧ x.sendings[j]? = some s ∧ s.served = none ∧
      s.turnedAway = false ∧ w'.transfers = w.transfers.set i (x.serve j a) ∧
      (a = true ∧ applyReq w.bucket x.req = some w'.bucket ∨
        a = false ∧ applyReq w.bucket x.req = none ∧ w'.bucket = w.bucket) := by
  unfold serveStep at h
  split at h
  next x hx =>
    split at h
    next s hs =>
      split at h
      next => cases h
      next hopen =>
        rw [not_or, Bool.not_eq_true, Option.isSome_eq_false_iff, Option.isNone_iff_eq_none,
          Bool.not_eq_true] at hopen
        split at h
        next bucket happly =>
          cases h
          exact ⟨x, s, true, hx, hs, hopen.1, hopen.2, rfl, Or.inl ⟨rfl, happly⟩⟩
        next happly =>
          cases h
          exact ⟨x, s, false, hx, hs, hopen.1, hopen.2, rfl, Or.inr ⟨rfl, happly, rfl⟩⟩
    next => cases h
  next => cases h

/-- What hearing of a request does. -/
theorem hearStep_some {i : Nat} {heard : A.Heard} (h : hearStep A c i heard w = some w') :
    ∃ x s left u p next, w.transfers[i]? = some x ∧ x.progress = .trying left u ∧
      x.sendings.getLast? = some s ∧ (A.verdict x.req heard).admits s = true ∧ w'.bucket = w.bucket ∧
      w'.transfers = w.transfers.set i
        (x.hear heard (decide (A.verdict x.req heard = .turnedAway)) p next) ∧
      ((∃ r, retryTurn x.req.conditionalCreate left u (A.attempt c x.req heard) = .stop r ∧
          p = .ended (r.bind (A.settle c x.req)) ∧ next = []) ∨
        ∃ left' u', retryTurn x.req.conditionalCreate left u (A.attempt c x.req heard) =
          .again left' u' ∧ p = .trying left' u' ∧ next = [.fresh]) := by
  unfold hearStep at h
  split at h
  next x hx =>
    split at h
    next left u s hp hlast =>
      dsimp only at h
      split at h
      next hadmits =>
        split at h
        next r hturn =>
          cases h
          exact ⟨x, s, left, u, _, _, hx, hp, hlast, hadmits, rfl, rfl, Or.inl ⟨r, hturn, rfl, rfl⟩⟩
        next left' u' hturn =>
          cases h
          exact ⟨x, s, left, u, _, _, hx, hp, hlast, hadmits, rfl, rfl,
            Or.inr ⟨left', u', hturn, rfl, rfl⟩⟩
      next => cases h
    next => cases h
  next => cases h

/-- What a step of the network does to the transfers: one of them is replaced. -/
structure Wire.Replaces (w w' : Wire A) (i : Nat) (x x' : Transfer A) : Prop where
  old : w.transfers[i]? = some x
  new : w'.transfers = w.transfers.set i x'
  owner : x'.owner = x.owner
  req : x'.req = x.req

/-- Replacing a transfer leaves the others. -/
theorem Wire.Replaces.get {i k : Nat} {x x' y : Transfer A} (h : w.Replaces w' i x x')
    (hy : w'.transfers[k]? = some y) : k = i ∧ y = x' ∨ k ≠ i ∧ w.transfers[k]? = some y := by
  rw [h.new] at hy
  by_cases hk : k = i
  · subst hk
    rw [List.getElem?_set_self (List.getElem?_eq_some_iff.mp h.old).1] at hy
    exact Or.inl ⟨rfl, (Option.some.inj hy).symm⟩
  · rw [List.getElem?_set_ne (Ne.symm hk)] at hy
    exact Or.inr ⟨hk, hy⟩

/-- Every transfer is sound, and a run of `retryStorageCall`. -/
def Wire.Good (N : NumberText) (c : Collection) (w : Wire A) : Prop :=
  ∀ (i : Nat) (x : Transfer A), w.transfers[i]? = some x → x.Sound ∧ x.Ran N c

/-- So it keeps a wire good if the new one is. -/
theorem Wire.Good.replace (h : w.Good N c) {i : Nat} {x x' : Transfer A} (hr : w.Replaces w' i x x')
    (hx' : x'.Sound ∧ x'.Ran N c) : w'.Good N c := by
  intro k y hy
  rcases hr.get hy with ⟨-, rfl⟩ | ⟨-, hold⟩
  · exact hx'
  · exact h k y hold

/-- An empty wire is good. -/
theorem good_empty : (Wire.empty A).Good N c := by
  intro i x hx
  cases hx

/-- So it stays when a transfer begins. -/
theorem Wire.Good.send (h : w.Good N c) (t : Nat) (r : Req) :
    Wire.Good N c { w with transfers := w.transfers ++ [Transfer.begin A N t r] } := by
  intro i x hx
  rcases Nat.lt_or_ge i w.transfers.length with hlt | hge
  · exact h i x ((List.getElem?_append_left hlt).symm.trans hx)
  · dsimp only at hx
    rw [List.getElem?_append_right hge] at hx
    obtain rfl := List.mem_singleton.mp (List.mem_of_getElem? hx)
    exact ⟨sound_begin A N t r, ran_begin A N c t r⟩

/-- **One step of the network.** -/
theorem Wire.Good.step (hA : A.Truthful) (h : w.Good N c) {e : WireStep A}
    (hs : wireStep A c e w = some w') : w'.Good N c := by
  cases e with
  | serve i j =>
    obtain ⟨x, s, a, hx, hsend, hserved, hopen, hnew, -⟩ := serveStep_some hs
    obtain ⟨hsound, hran⟩ := h i x hx
    exact h.replace ⟨hx, hnew, rfl, rfl⟩ ⟨hsound.serve hsend hserved hopen a, hran.serve j a⟩
  | hear i heard =>
    obtain ⟨x, s, left, u, p, next, hx, hp, hlast, hadmits, -, hnew, hturn⟩ := hearStep_some hs
    obtain ⟨hsound, hran⟩ := h i x hx
    rcases hturn with ⟨r, hstop, rfl, rfl⟩ | ⟨left', u', hagain, rfl, rfl⟩
    · exact h.replace ⟨hx, hnew, rfl, rfl⟩
        ⟨hsound.stop hA hp hlast hadmits hstop, hran.hear hp (Or.inl ⟨r, hstop, rfl⟩)⟩
    · exact h.replace ⟨hx, hnew, rfl, rfl⟩
        ⟨hsound.again hA hp hlast hadmits hagain, hran.hear hp (Or.inr ⟨left', u', hagain, rfl⟩)⟩

/-- What a request of a thread does to the transfers: nothing, or it opens one. -/
theorem wireExec_transfers {t : Nat} {op : Op} {pick : Pick} {r : Resp op}
    (h : wireExec A N t op pick w = some (r, w')) :
    w'.transfers = w.transfers ∨
      ∃ q, w' = { w with transfers := w.transfers ++ [Transfer.begin A N t q] } := by
  unfold wireExec at h
  split at h
  next q =>
    split at h
    · cases h
      exact Or.inr ⟨q, rfl⟩
    · cases h
  next id =>
    split at h
    next x hx =>
      split at h
      · cases h
      · split at h <;> cases h
        exact Or.inl rfl
    next => cases h
  next => cases h
  next => cases h
  next =>
    obtain ⟨p, -, hp⟩ := Option.map_eq_some_iff.mp h
    cases hp
    exact Or.inl rfl

/-- **And with every request** of a call. -/
theorem Wire.Good.exec (h : w.Good N c) {t : Nat} {op : Op} {pick : Pick} {r : Resp op}
    (hex : wireExec A N t op pick w = some (r, w')) : w'.Good N c := by
  rcases wireExec_transfers hex with hsame | ⟨q, rfl⟩
  · exact fun i x hx => h i x (hsame ▸ hx)
  · exact h.send t q

end Steps

/-! ## The bucket a wire stands for -/

section Models

variable {A : Adapter} {N : NumberText} {c : Collection} {w w' : Wire A} {v : World}

/-- The message a transfer is. -/
structure Carried (x : Transfer A) (m : Msg) : Prop where
  owner : m.owner = x.owner
  req : m.req = x.req
  applied : m.applied = x.landed
  refused : m.void = false → m.refused = x.refused
  void : m.void = true → ∃ e, x.progress = .ended (.error e) ∧ e.isNotApplied = true

/-- The world over the same bucket, with a message for each transfer. -/
structure Models (N : NumberText) (c : Collection) (w : Wire A) (v : World) : Prop where
  bucket : v = { w.bucket with net := v.net }
  msgs : List.Forall₂ Carried w.transfers v.net
  good : w.Good N c

/-- A write that is no create and was reported as not applied was not applied. -/
def Wire.Plain (w : Wire A) : Prop :=
  ∀ (i : Nat) (x : Transfer A), w.transfers[i]? = some x → x.req.conditionalCreate = false →
    ∀ e, x.progress = .ended (.error e) → e.isNotApplied = true → x.landed = false

/-- A run whose writes are all creates needs no exception. -/
theorem plain_of_creates (h : w.transfers.all (·.req.conditionalCreate) = true) : w.Plain := by
  intro i x hx hcc
  rw [List.all_eq_true.mp h x (List.mem_of_getElem? hx)] at hcc
  cases hcc

/-- Without a verdict the message is alive. -/
theorem Carried.not_void {x : Transfer A} {m : Msg} (h : Carried x m)
    (hp : ∀ e, x.progress = .ended (.error e) → e.isNotApplied = false) : m.void = false := by
  by_contra hv
  obtain ⟨e, he, hn⟩ := h.void (by simpa using hv)
  rw [hp e he] at hn
  cases hn

/-- The message with the flag of one more delivery set. -/
theorem Carried.serve {x : Transfer A} {m : Msg} {j : Nat} {s : Sending} {a : Bool}
    (h : Carried x m) (hs : x.sendings[j]? = some s) (hserved : s.served = none) (m' : Msg)
    (howner : m'.owner = m.owner) (hreq : m'.req = m.req) (hvoid : m'.void = m.void)
    (happlied : m'.applied = (m.applied || a))
    (hrefused : m.void = false → m'.refused = (m.refused || !a)) : Carried (x.serve j a) m' := by
  refine ⟨howner.trans h.owner, hreq.trans h.req, ?_, fun hv => ?_, fun hv => ?_⟩
  · rw [happlied, h.applied, landed_serve hs hserved]
  · rw [hvoid] at hv
    rw [hrefused hv, h.refused hv, refused_serve hs hserved]
  · exact h.void (hvoid ▸ hv)

/-- A write does not look at the net. -/
theorem applyReq_withNet (w : World) (net : List Msg) (r : Req) :
    applyReq { w with net } r = (applyReq w r).map fun w' => { w' with net } := by
  cases r <;> simp only [applyReq] <;> first | rfl | (split <;> rfl)

/-- It does the same below and above. -/
theorem Models.applyReq (h : Models N c w v) (r : Req) :
    Baerly.applyReq v r = (Baerly.applyReq w.bucket r).map fun b => { b with net := v.net } := by
  conv_lhs => rw [h.bucket]
  exact applyReq_withNet w.bucket v.net r

/-- A read, a clock or a choice does not look at the messages. -/
theorem exec_net (net : List Msg) {t : Nat} {op : Op} {pick : Pick} {w w' : World} {r : Resp op}
    (hsend : ∀ q, op ≠ .send q) (hawait : ∀ id, op ≠ .await id)
    (h : exec t op pick w = some (r, w')) :
    exec t op pick { w with net } = some (r, { w' with net }) := by
  cases op with
  | send q => exact absurd rfl (hsend q)
  | await id => exact absurd rfl (hawait id)
  | getCurrent | getLog | getSnapshot | getPending | now | aborted => cases pick <;> cases h <;> rfl
  | listSnapshots maxKeys =>
    cases pick with
    | keys ks =>
      simp only [exec] at h ⊢
      split at h
      next hle =>
        cases h
        rw [if_pos hle]
      next => cases h
    | fail e =>
      cases h
      rfl
    | _ => cases h
  | mintGeneration =>
    cases pick with
    | nonce g =>
      simp only [exec] at h ⊢
      split at h
      next hok =>
        cases h
        rw [if_pos hok]
      next => cases h
    | _ => cases h
  | schedule n =>
    cases pick with
    | order is =>
      simp only [exec] at h ⊢
      split at h
      next hperm =>
        cases h
        rw [if_pos hperm]
      next => cases h
    | _ => cases h

/-- Collisions only depend on what was sent. -/
theorem noCollision_congr {v v' : World} (h : v.net.map (·.req) = v'.net.map (·.req)) (r : Req) :
    noCollision v r = noCollision v' r := by
  cases r with
  | putSnapshot key body =>
    unfold noCollision
    dsimp only
    generalize v.net = net at h
    generalize v'.net = net' at h
    induction net generalizing net' with
    | nil =>
      cases net' with
      | nil => rfl
      | cons m' net' => cases h
    | cons m net ih =>
      cases net' with
      | nil => cases h
      | cons m' net' =>
        obtain ⟨hhead, htail⟩ := List.cons.inj h
        replace hhead : m.req = m'.req := hhead
        rw [List.all_cons, List.all_cons, hhead, ih net' htail]
  | _ => rfl

/-- Keys are free below iff they are above. -/
theorem Models.noCollision (h : Models N c w v) (r : Req) :
    Baerly.noCollision v r = Baerly.noCollision w.begun r := by
  refine noCollision_congr ?_ r
  have hbegun : w.begun.net.map (·.req) = w.transfers.map (·.req) := by
    unfold Wire.begun
    dsimp only
    rw [List.map_map]
    rfl
  rw [hbegun]
  have hmsgs := h.msgs
  generalize v.net = net at hmsgs
  generalize w.transfers = transfers at hmsgs
  induction hmsgs with
  | nil => rfl
  | cons hhead _ ih => rw [List.map_cons, List.map_cons, hhead.req, ih]

/-! ## Matching the steps -/

/-- A verdict is about requests that were not applied. -/
theorem Wire.Good.not_landed (h : w.Good N c) (hplain : w.Plain) {i : Nat} {x : Transfer A}
    (hx : w.transfers[i]? = some x) {e : Err} (hp : x.progress = .ended (.error e))
    (hn : e.isNotApplied = true) : x.landed = false := by
  cases hcc : x.req.conditionalCreate with
  | false => exact hplain i x hx hcc e hp hn
  | true =>
    obtain ⟨hsound, -⟩ := h i x hx
    have hflags := hsound.certain hcc e hp hn
    by_contra hlanded
    rw [Bool.not_eq_false, Transfer.landed, List.any_eq_true] at hlanded
    obtain ⟨s, hs, hserved⟩ := hlanded
    have hturned := hsound.turned s hs (hflags _ (List.mem_map_of_mem hs))
    rw [hturned] at hserved
    cases hserved

/-- Opening a transfer sends a message. -/
theorem Models.send (h : Models N c w v) (t : Nat) (r : Req) :
    Models N c { w with transfers := w.transfers ++ [Transfer.begin A N t r] }
      { v with net := v.net ++ [⟨t, r, false, false, false⟩] } := by
  refine ⟨?_, List.rel_append h.msgs (.cons ?_ .nil), h.good.send t r⟩
  · rw [h.bucket]
  · rcases Transfer.begin_cases A N t r with ⟨budget, -, heq⟩ | ⟨-, heq⟩ <;> rw [heq] <;>
      exact ⟨rfl, rfl, rfl, fun _ => rfl, fun hv => by cases hv⟩

/-- A call that awaits a transfer gets what one that awaits the message may get. -/
theorem Models.await (h : Models N c w v) (hplain : w.Plain) {t id : Nat} {x : Transfer A}
    (hx : w.transfers[id]? = some x) (howner : x.owner = t) {r : Except Err (Option JsString)}
    (hp : x.progress = .ended r) :
    ∃ pick v', exec t (.await id) pick v = some (r, v') ∧ Models N c w v' := by
  obtain ⟨hsound, -⟩ := h.good id x hx
  obtain ⟨m, hm, hcarried⟩ := exists_related h.msgs hx
  have hm_owner : ¬ m.owner ≠ t := not_not.mpr (hcarried.owner.trans howner)
  cases r with
  | ok d =>
    refine ⟨.acked d, v, ?_, h⟩
    simp only [exec, hm, if_neg hm_owner, hcarried.applied, hsound.acked d hp, if_true]
  | error e =>
    cases hconflict : e.isWriteConflict with
    | true =>
      obtain ⟨hrefused, message, rfl⟩ := hsound.conflict e hp hconflict
      have hvoid : m.void = false := hcarried.not_void fun e' he' => by
        rw [hp] at he'
        cases he'
        rfl
      refine ⟨.conflict message, v, ?_, h⟩
      simp only [exec, hm, if_neg hm_owner, hcarried.refused hvoid, hrefused, if_true]
    | false =>
      cases hn : e.isNotApplied with
      | false =>
        refine ⟨.fail e, v, ?_, h⟩
        simp only [exec, hm, if_neg hm_owner, hconflict, hn, Bool.false_eq_true, if_false]
      | true =>
        have hlanded := h.good.not_landed hplain hx hp hn
        refine ⟨.fail e, v.setMsg id { m with void := true }, ?_, ?_, ?_, h.good⟩
        · simp only [exec, hm, if_neg hm_owner, hconflict, hn, hcarried.applied, hlanded,
            Bool.false_eq_true, if_false, if_true]
        · unfold World.setMsg
          rw [h.bucket]
        · exact related_set_right h.msgs hx ⟨hcarried.owner, hcarried.req, hcarried.applied,
            fun hv => (by cases hv), fun _ => ⟨e, hp, hn⟩⟩

/-- To hear of a request changes no message. -/
theorem Models.hear (h : Models N c w v) (hgood : w'.Good N c) {i : Nat} {heard : A.Heard}
    (hs : hearStep A c i heard w = some w') : Models N c w' v := by
  obtain ⟨x, s, left, u, p, next, hx, hp, -, -, hbucket, hnew, hturn⟩ := hearStep_some hs
  obtain ⟨m, hm, hcarried⟩ := exists_related h.msgs hx
  have hnext : ∀ b, next.any (·.served = some b) = false := by
    intro b
    rcases hturn with ⟨-, -, -, rfl⟩ | ⟨-, -, -, -, rfl⟩ <;> rfl
  have hvoid : m.void = false := hcarried.not_void fun e he => by
    rw [hp] at he
    cases he
  refine ⟨by rw [hbucket]; exact h.bucket, ?_, hgood⟩
  rw [hnew]
  refine related_set_left h.msgs hm ⟨hcarried.owner, hcarried.req, ?_, fun hv => ?_, fun hv => ?_⟩
  · exact hcarried.applied.trans (any_hear (hnext true)).symm
  · exact (hcarried.refused hv).trans (any_hear (hnext false)).symm
  · rw [hvoid] at hv
    cases hv

/-- Serving a request is a delivery of the message, unless the transfer ended with a verdict: then it
    has no effect. -/
theorem Models.serve (h : Models N c w v) (hgood : w'.Good N c) (hplain : w'.Plain) {i j : Nat}
    (hs : serveStep A i j w = some w') :
    Models N c w' v ∨ ∃ v', deliver i v = some v' ∧ Models N c w' v' := by
  obtain ⟨x, s, a, hx, hsend, hserved, -, hnew, hbucket⟩ := serveStep_some hs
  obtain ⟨m, hm, hcarried⟩ := exists_related h.msgs hx
  have happlyReq := h.applyReq x.req
  rw [← hcarried.req] at happlyReq
  cases hv : m.void with
  | true =>
    obtain ⟨e, hp, hn⟩ := hcarried.void hv
    have hget : w'.transfers[i]? = some (x.serve j a) := by
      rw [hnew]
      exact List.getElem?_set_self (List.getElem?_eq_some_iff.mp hx).1
    -- the verdict still stands afterwards, so this request was not applied
    have hlanded := hgood.not_landed hplain hget hp hn
    rw [landed_serve hsend hserved, Bool.or_eq_false_iff] at hlanded
    obtain ⟨-, rfl⟩ := hlanded
    rcases hbucket with ⟨ha, -⟩ | ⟨-, -, hbucket⟩
    · cases ha
    · refine Or.inl ⟨by rw [hbucket]; exact h.bucket, ?_, hgood⟩
      rw [hnew]
      exact related_set_left h.msgs hm (hcarried.serve hsend hserved m rfl rfl rfl
        (Bool.or_false _).symm fun hlive => by
          rw [hv] at hlive
          cases hlive)
  | false =>
    refine Or.inr ?_
    rcases hbucket with ⟨rfl, happly⟩ | ⟨rfl, hnone, hbucket⟩
    · refine ⟨({ w'.bucket with net := v.net } : World).setMsg i { m with applied := true }, ?_,
        rfl, ?_, hgood⟩
      · rw [hcarried.req, happly] at happlyReq
        simp only [deliver, hm, hv, Bool.false_eq_true, if_false, hcarried.req, happlyReq,
          Option.map_some]
      · rw [hnew]
        exact related_set h.msgs (hcarried.serve hsend hserved { m with applied := true } rfl rfl rfl
          (Bool.or_true _).symm fun _ => (Bool.or_false _).symm) i
    · refine ⟨v.setMsg i { m with refused := true }, ?_, ?_, ?_, hgood⟩
      · rw [hcarried.req, hnone] at happlyReq
        simp only [deliver, hm, hv, Bool.false_eq_true, if_false, hcarried.req, happlyReq,
          Option.map_none]
      · unfold World.setMsg
        rw [hbucket, h.bucket]
      · rw [hnew]
        exact related_set h.msgs (hcarried.serve hsend hserved { m with refused := true } rfl rfl rfl
          (Bool.or_false _).symm fun _ => (Bool.or_true _).symm) i

/-- A step of the network is a delivery, or nothing. -/
theorem Models.step (hA : A.Truthful) (h : Models N c w v) (hplain : w'.Plain) {e : WireStep A}
    (hs : wireStep A c e w = some w') :
    Models N c w' v ∨ ∃ i v', deliver i v = some v' ∧ Models N c w' v' := by
  have hgood := h.good.step hA hs
  cases e with
  | hear i heard => exact Or.inl (h.hear hgood hs)
  | serve i j =>
    rcases h.serve hgood hplain hs with hsame | hdelivered
    · exact Or.inl hsame
    · exact Or.inr ⟨i, hdelivered⟩

/-- A request of a thread is the same request over the bucket. -/
theorem Models.exec (h : Models N c w v) (hplain : w'.Plain) {t : Nat} {op : Op} {pick : Pick}
    {r : Resp op} (hex : wireExec A N t op pick w = some (r, w')) :
    ∃ pick' v', Baerly.exec t op pick' v = some (r, v') ∧ Models N c w' v' := by
  have hgood := h.good.exec hex
  have hother : (∀ q, op ≠ .send q) → (∀ id, op ≠ .await id) →
      (Baerly.exec t op pick w.bucket).map (fun p => (p.1, { w with bucket := p.2 })) = some (r, w') →
      ∃ pick' v', Baerly.exec t op pick' v = some (r, v') ∧ Models N c w' v' := by
    intro hsend hawait hex
    obtain ⟨⟨r', bucket⟩, hbucket, hp⟩ := Option.map_eq_some_iff.mp hex
    cases hp
    have hnet := exec_net v.net hsend hawait hbucket
    rw [← h.bucket] at hnet
    exact ⟨pick, { bucket with net := v.net }, hnet, rfl, h.msgs, hgood⟩
  cases op with
  | send q =>
    cases pick with
    | ok =>
      simp only [wireExec] at hex
      split at hex
      next hfree =>
        cases hex
        refine ⟨.ok, _, ?_, h.send t q⟩
        rw [← h.noCollision] at hfree
        simp only [Baerly.exec, hfree, if_true, h.msgs.length_eq]
      next => cases hex
    | _ => cases hex
  | await id =>
    cases pick with
    | ok =>
      simp only [wireExec] at hex
      split at hex
      next x hx =>
        split at hex
        · cases hex
        next howner =>
          split at hex
          next r' hp =>
            cases hex
            exact h.await hplain hx (not_not.mp howner) hp
          next => cases hex
      next => cases hex
    | _ => cases hex
  | getCurrent | getLog | getSnapshot | getPending | listSnapshots | now | mintGeneration | schedule
  | aborted =>
    exact hother (fun q hq => by cases hq) (fun id hid => by cases hid) hex

/-- A write that was reported truly was so before. -/
theorem Wire.Plain.exec_back {t : Nat} {op : Op} {pick : Pick} {r : Resp op}
    (hex : wireExec A N t op pick w = some (r, w')) (h : w'.Plain) : w.Plain := by
  intro i x hx
  rcases wireExec_transfers hex with hsame | ⟨q, rfl⟩
  · exact h i x (hsame ▸ hx)
  · refine h i x ?_
    exact (List.getElem?_append_left (List.getElem?_eq_some_iff.mp hx).1).trans hx

/-- Also before a step of the wire. -/
theorem Wire.Plain.step_back {e : WireStep A} (hs : wireStep A c e w = some w') (h : w'.Plain) :
    w.Plain := by
  intro k y hy hcc e' hp hn
  cases e with
  | serve i j =>
    obtain ⟨x, s, a, hx, hsend, hserved, -, hnew, -⟩ := serveStep_some hs
    by_cases hk : k = i
    · subst hk
      obtain rfl := Option.some.inj (hx.symm.trans hy)
      have hlanded := h k (x.serve j a) (by
        rw [hnew]
        exact List.getElem?_set_self (List.getElem?_eq_some_iff.mp hx).1) hcc e' hp hn
      rw [landed_serve hsend hserved, Bool.or_eq_false_iff] at hlanded
      exact hlanded.1
    · refine h k y ?_ hcc e' hp hn
      rw [hnew, List.getElem?_set_ne (Ne.symm hk)]
      exact hy
  | hear i heard =>
    obtain ⟨x, s, left, u, p, next, hx, hwait, -, -, -, hnew, -⟩ := hearStep_some hs
    by_cases hk : k = i
    · subst hk
      rw [hx] at hy
      cases hy
      rw [hwait] at hp
      cases hp
    · refine h k y ?_ hcc e' hp hn
      rw [hnew, List.getElem?_set_ne (Ne.symm hk)]
      exact hy

/-- Whether a call is accepted does not depend on the net. -/
theorem accepts_net (call : Call) (w : World) (net : List Msg) :
    deployedAccepts call { w with net } = deployedAccepts call w := by
  cases call <;> rfl

/-- The system over a truthful adapter is simulated by the system over the bucket. -/
def wireSimulation (hA : A.Truthful) (N : NumberText) (c : Collection) (codec : Codec) :
    Simulation (wired A N c codec) (deployed codec c) where
  rel := Models N c
  ok := Wire.Plain
  body _ _ := rfl
  accepts {call w v} h haccepts := by
    have hnet : deployedAccepts call v = deployedAccepts call w.bucket := by
      rw [h.bucket]
      exact accepts_net call w.bucket v.net
    exact hnet.trans haccepts
  exec_back := Wire.Plain.exec_back
  env_back := Wire.Plain.step_back
  exec h hex hplain := h.exec hplain hex
  env h hs hplain := h.step hA hplain hs

end Models

/-! ## Every run -/

section Runs

variable {A : Adapter} {N : NumberText} {c : Collection} {codec : Codec}

/-- What a create that is over promises: it landed, or a request of it found the key taken, or none of
    its requests was served, or will ever be. -/
structure Transfer.TellsFate (x : Transfer A) : Prop where
  acked : ∀ d, x.progress = .ended (.ok d) → x.landed = true
  conflict : ∀ e, x.progress = .ended (.error e) → e.isWriteConflict = true → x.refused = true
  certain : ∀ e, x.progress = .ended (.error e) →
    e.isDefinitiveCreateRejection = true ∨ e.isCreateNotApplied = true →
    ∀ s ∈ x.sendings, s.served = none ∧ s.turnedAway = true

/-- **A sound create tells its fate.** -/
theorem Transfer.Sound.tellsFate {x : Transfer A} (h : x.Sound)
    (hcreate : x.req.conditionalCreate = true) : x.TellsFate where
  acked := h.acked
  conflict e he hc := (h.conflict e he hc).1
  certain e he hv s hs := by
    have hn : e.isNotApplied = true := by
      rw [Err.isNotApplied_eq, Bool.or_eq_true]
      exact hv
    have hturned := h.certain hcreate e he hn s.turnedAway (List.mem_map_of_mem hs)
    exact ⟨h.turned s hs hturned, hturned⟩

/-- Every transfer of every run is sound. -/
theorem good_run (hA : A.Truthful) {acts : List (Act (wired A N c codec))} :
    ∀ {σ σ' : WireState A}, (wired A N c codec).run σ acts = some σ' → σ.world.Good N c →
      σ'.world.Good N c := by
  induction acts with
  | nil =>
    intro σ σ' hr h
    cases hr
    exact h
  | cons a acts ih =>
    intro σ σ' hr h
    simp only [Machine.run, Option.bind_eq_some_iff] at hr
    obtain ⟨ρ, hn, hr⟩ := hr
    refine ih hr ?_
    cases a with
    | spawn call =>
      simp only [Machine.next] at hn
      split at hn
      · cases hn
        exact h
      · cases hn
    | step t pick =>
      obtain ⟨_, _, _, _, _, _, hex, _⟩ := Machine.next_step hn
      exact h.exec hex
    | env e =>
      simp only [Machine.next, Option.map_eq_some_iff] at hn
      obtain ⟨w', hs, rfl⟩ := hn
      exact h.step hA hs

/-- **A create tells its fate**, over every backend and in every run: late requests, lost answers,
    throttles, and failures of any kind.  It is the `retryStorageCall` of its attempts. -/
theorem create_tells_its_fate (b : Backend) {acts : List (Act (wired b.adapter N c codec))}
    {σ : WireState b.adapter} (hr : (wired b.adapter N c codec).run (WireState.init _) acts = some σ)
    {x : Transfer b.adapter} (hx : x ∈ σ.world.transfers) (hcreate : x.req.conditionalCreate = true) :
    x.Ran N c ∧ x.TellsFate := by
  obtain ⟨i, hi⟩ := List.getElem?_of_mem hx
  obtain ⟨hsound, hran⟩ := good_run (truthful_backend b) hr good_empty i x hi
  exact ⟨hran, hsound.tellsFate hcreate⟩

/-- **Every run over a backend is a run over the bucket**: the same calls at the same requests, with the
    same outcomes, and the same bucket.  That the run is `Plain` has to be asked for: in
    `denied_after_landing` a write that landed is reported as not applied. -/
theorem adapters_refine_bucket (b : Backend) {acts : List (Act (wired b.adapter N c codec))}
    {σ : WireState b.adapter} (hr : (wired b.adapter N c codec).run (WireState.init _) acts = some σ)
    (hplain : σ.world.Plain) : ∃ acts' τ, (deployed codec c).run State.init acts' = some τ ∧
      σ.Alike (Models N c) τ := by
  have hinit : (WireState.init b.adapter).Alike (Models N c) State.init :=
    ⟨⟨rfl, .nil, good_empty⟩, .nil⟩
  exact (wireSimulation (truthful_backend b) N c codec).run hr hplain hinit

end Runs

/-! ## A lost acknowledgement

Over S3, thread 0 commits on a fresh bucket.  Its create lands, the response is a `502`, and the second
request gets the `412` that its first one caused. -/

/-- S3 with a parser that finds nothing. -/
def sampleBackend : Backend := .s3 (fun _ => none) (fun _ => "") none

/-- The steps of the example. -/
abbrev WireAct := Act (wired sampleBackend.adapter integerText sampleCollection sampleCodec)

/-- The client of transfer `i` hears of a response with an `ETag`. -/
def respond (i status : Nat) : WireAct :=
  .env (.hear i (.answered ⟨status, some (js "1"), none, none, .ok ""⟩))

def lostAcknowledgement : List WireAct :=
  [.spawn (.commit sampleConfig (sampleInput "x")), .step 0 Pick.ok, .step 0 (Pick.nonce (js "0a")),
    .step 0 Pick.ok, .env (.serve 0 0), respond 0 200, .step 0 Pick.ok, .step 0 Pick.ok,
    .step 0 (Pick.clock 7), .step 0 Pick.ok, .env (.serve 1 0), respond 1 502, .env (.serve 1 1),
    respond 1 412, .step 0 Pick.ok]

/-- A run whose outcome is computed is a run. -/
theorem exists_wired {α : Type} {f : WireState sampleBackend.adapter → α} {a : α}
    {acts : List WireAct} (h : ((wired sampleBackend.adapter integerText sampleCollection
      sampleCodec).run (WireState.init _) acts).map f = some a) :
    ∃ σ, (wired sampleBackend.adapter integerText sampleCollection sampleCodec).run
      (WireState.init _) acts = some σ ∧ f σ = a :=
  Option.map_eq_some_iff.mp h

/-- The create landed and found its own object; its fate is told by a conflict. -/
theorem create_tells_its_fate_lostAcknowledgement : ∃ σ x,
    (wired sampleBackend.adapter integerText sampleCollection sampleCodec).run (WireState.init _)
      lostAcknowledgement = some σ ∧ σ.world.transfers[1]? = some x ∧
    (x.landed, x.refused, x.sendings.length) = (true, true, 2) ∧
    x.Ran integerText sampleCollection ∧ x.TellsFate := by
  have hrun : ((wired sampleBackend.adapter integerText sampleCollection sampleCodec).run
      (WireState.init _) lostAcknowledgement).map (fun σ => σ.world.transfers[1]?.map fun x =>
        (x.req.conditionalCreate, x.landed, x.refused, x.sendings.length)) =
      some (some (true, true, true, 2)) := by
    decide +kernel
  obtain ⟨σ, hr, hfacts⟩ := exists_wired hrun
  obtain ⟨x, hx, hfacts⟩ := Option.map_eq_some_iff.mp hfacts
  obtain ⟨hcreate, hlanded⟩ := Prod.mk.inj hfacts
  exact ⟨σ, x, hr, hx, hlanded, create_tells_its_fate sampleBackend hr (List.mem_of_getElem? hx)
    hcreate⟩

/-- The commit reads its slot back and finds that it committed. -/
theorem adapters_refine_lostAcknowledgement : ∃ σ,
    (wired sampleBackend.adapter integerText sampleCollection sampleCodec).run (WireState.init _)
      (lostAcknowledgement ++ List.replicate 2 (.step 0 Pick.ok)) = some σ ∧ σ.world.bucket.tail = 1 ∧
    ∃ acts' τ, (deployed sampleCodec sampleCollection).run State.init acts' = some τ ∧
      σ.Alike (Models integerText sampleCollection) τ := by
  have hrun : ((wired sampleBackend.adapter integerText sampleCollection sampleCodec).run
      (WireState.init _) (lostAcknowledgement ++ List.replicate 2 (.step 0 Pick.ok))).map
        (fun σ => (σ.world.transfers.all (·.req.conditionalCreate), σ.world.bucket.tail)) =
      some (true, 1) := by
    decide +kernel
  obtain ⟨σ, hr, hfacts⟩ := exists_wired hrun
  obtain ⟨hcreates, htail⟩ := Prod.mk.inj hfacts
  exact ⟨σ, hr, htail, adapters_refine_bucket sampleBackend hr (plain_of_creates hcreates)⟩

/-- What a transfer was rejected with. -/
def Progress.error? : Progress → Option Err
  | .ended (.error e) => some e
  | _ => none

/-- An error that is read is what the transfer ended with. -/
theorem Progress.of_error? {p : Progress} {e : Err} (h : p.error? = some e) :
    p = .ended (.error e) := by
  cases p with
  | trying left u => cases h
  | ended r =>
    cases r with
    | ok d => cases h
    | error e' =>
      cases h
      rfl

/-- Another thread claims the fence; its first write lands, and is reported as denied. -/
def deniedClaim : List WireAct :=
  lostAcknowledgement ++ [.spawn (.claim (js "w")), .step 1 Pick.ok, .step 1 Pick.ok, .env (.serve 2 0),
    respond 2 502, respond 2 403]

/-- Not every run is plain: a write under `If-Match` may be denied after it landed. -/
theorem denied_after_landing : ∃ σ,
    (wired sampleBackend.adapter integerText sampleCollection sampleCodec).run (WireState.init _)
      deniedClaim = some σ ∧ ¬ σ.world.Plain := by
  have hrun : ((wired sampleBackend.adapter integerText sampleCollection sampleCodec).run
      (WireState.init _) deniedClaim).map (fun σ => σ.world.transfers[2]?.map fun x =>
        (x.req.conditionalCreate, x.landed, x.progress.error?.map (·.isNotApplied))) =
      some (some (false, true, some true)) := by
    decide +kernel
  obtain ⟨σ, hr, hfacts⟩ := exists_wired hrun
  obtain ⟨x, hx, hfacts⟩ := Option.map_eq_some_iff.mp hfacts
  simp only [Prod.mk.injEq] at hfacts
  obtain ⟨hcc, hlanded, herror⟩ := hfacts
  obtain ⟨e, he, hn⟩ := Option.map_eq_some_iff.mp herror
  refine ⟨σ, hr, fun hplain => ?_⟩
  rw [hplain 2 x hx hcc e (Progress.of_error? he) hn] at hlanded
  cases hlanded

end Baerly
