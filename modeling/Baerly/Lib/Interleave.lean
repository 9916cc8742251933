import Baerly.Lib.Prog

/-
  Interleaving of asynchronous programs over one shared world, and the rely/guarantee rules
  that prove things about every interleaving.

  PROGRAM: a pool of threads.  Each thread is a `Prog`; one step of the pool executes the next
  request of one thread ATOMICALLY, or lets the world change by itself (`env`: a delayed
  message arriving, say), or spawns a thread.  A crash is a thread that is never scheduled
  again, so it needs no step of its own.  Every nondeterministic outcome is resolved by a
  `Pick`, so a run is a list of actions and can be replayed.

  SPEC: an invariant of the world in every reachable state, and for each finished thread a
  relation between the world it started in, its outcome, and the world it finished in.

  CRUX: `wp t p Q w` — from `w`, whatever the others do between two requests of `p` as long as
  they keep `rely t`, every request of `p` keeps the invariant, keeps the others' rely, and the
  outcome satisfies `Q`.  `wp` is defined by recursion over the tree, `Protocol.sound` is the
  one induction over runs.
-/

namespace Async

/-! ## The machine -/

section Machine

variable {W Op : Type} {Resp : Op → Type} {ε Call : Type} {Res : Call → Type}

/-- Everything an interleaving semantics is built from. -/
structure Machine (W Op : Type) (Resp : Op → Type) (ε Call : Type) (Res : Call → Type) where
  /-- How the world resolves what a request leaves open. -/
  Pick : Type
  /-- Answer one request of thread `t`; `none` when the pick is not possible here. -/
  exec : Nat → (op : Op) → Pick → W → Option (Resp op × W)
  /-- Steps the world takes by itself. -/
  Env : Type
  env : Env → W → Option W
  /-- The program thread `t` runs when it is spawned for a call. -/
  body : Nat → (c : Call) → Prog Op Resp ε (Res c)
  /-- What a caller may pass in this world. -/
  accepts : Call → W → Bool

/-- A thread is either at a request, or it finished, and then the world it finished in is kept
    for stating properties. -/
inductive Status (W Op : Type) (Resp : Op → Type) (ε α : Type) where
  | waiting (op : Op) (k : Resp op → Prog Op Resp ε α)
  | done (r : Except ε α) (w : W)

/-- Run a program's pure part up to its next request. -/
def settle {α : Type} (w : W) : Prog Op Resp ε α → Status W Op Resp ε α
  | .ret a => .done (.ok a) w
  | .throw e => .done (.error e) w
  | .call op k => .waiting op k

/-- A thread: the call it runs, the world it was spawned in, and where it stands. -/
structure Thread (W Op : Type) (Resp : Op → Type) (ε Call : Type) (Res : Call → Type) where
  call : Call
  start : W
  status : Status W Op Resp ε (Res call)

/-- The pool: the world and the threads spawned so far; a thread's id is its position. -/
structure Pool (W Op : Type) (Resp : Op → Type) (ε Call : Type) (Res : Call → Type) where
  world : W
  threads : List (Thread W Op Resp ε Call Res)

/-- One action of a run. -/
inductive Act (M : Machine W Op Resp ε Call Res) where
  | spawn (c : Call)
  | step (t : Nat) (pick : M.Pick)
  | env (e : M.Env)

/-- Perform one action; `none` when it is not possible. -/
def Machine.next (M : Machine W Op Resp ε Call Res) (σ : Pool W Op Resp ε Call Res) :
    Act M → Option (Pool W Op Resp ε Call Res)
  | .spawn c =>
    if M.accepts c σ.world then
      some { σ with threads :=
        σ.threads ++ [⟨c, σ.world, settle σ.world (M.body σ.threads.length c)⟩] }
    else none
  | .step t pick =>
    match σ.threads[t]? with
    | some ⟨c, w₀, .waiting op k⟩ =>
      match M.exec t op pick σ.world with
      | some (r, w') => some ⟨w', σ.threads.set t ⟨c, w₀, settle w' (k r)⟩⟩
      | none => none
    | _ => none
  | .env e => (M.env e σ.world).map fun w' => { σ with world := w' }

/-- Perform a list of actions. -/
def Machine.run (M : Machine W Op Resp ε Call Res) :
    Pool W Op Resp ε Call Res → List (Act M) → Option (Pool W Op Resp ε Call Res)
  | σ, [] => some σ
  | σ, a :: as => (M.next σ a).bind fun σ' => M.run σ' as

theorem Machine.run_append (M : Machine W Op Resp ε Call Res)
    {σ σ' : Pool W Op Resp ε Call Res} {as bs : List (Act M)} :
    M.run σ (as ++ bs) = some σ' ↔ ∃ ρ, M.run σ as = some ρ ∧ M.run ρ bs = some σ' := by
  induction as generalizing σ with
  | nil => simp [run]
  | cons a as ih =>
    simp only [List.cons_append, run, Option.bind_eq_some_iff, ih]
    constructor
    · rintro ⟨τ, h1, ρ, h2, h3⟩
      exact ⟨ρ, ⟨τ, h1, h2⟩, h3⟩
    · rintro ⟨ρ, ⟨τ, h1, h2⟩, h3⟩
      exact ⟨τ, h1, ρ, h2, h3⟩

/-- A finished thread is never touched again. -/
theorem Machine.run_done (M : Machine W Op Resp ε Call Res) {t : Nat} {c : Call} {w₀ w : W}
    {r : Except ε (Res c)} {as : List (Act M)} :
    ∀ {σ σ' : Pool W Op Resp ε Call Res}, M.run σ as = some σ' →
      σ.threads[t]? = some ⟨c, w₀, .done r w⟩ → σ'.threads[t]? = some ⟨c, w₀, .done r w⟩ := by
  induction as with
  | nil => intro σ σ' hr ht; cases hr; exact ht
  | cons a as ih =>
    intro σ σ' hr ht
    simp only [Machine.run, Option.bind_eq_some_iff] at hr
    obtain ⟨ρ, hn, hr⟩ := hr
    refine ih hr ?_
    have hlt : t < σ.threads.length := (List.getElem?_eq_some_iff.mp ht).1
    cases a with
    | spawn c =>
      simp only [Machine.next] at hn
      split at hn
      · cases hn
        rw [List.getElem?_append_left hlt]
        exact ht
      · cases hn
    | env e =>
      simp only [Machine.next, Option.map_eq_some_iff] at hn
      obtain ⟨w', _, rfl⟩ := hn
      exact ht
    | step u pick =>
      simp only [Machine.next] at hn
      split at hn
      next c w₀ op k hth =>
        split at hn
        next r w' hex =>
          cases hn
          have hne : u ≠ t := by
            rintro rfl
            rw [ht] at hth
            cases hth
          rw [List.getElem?_set_ne hne]
          exact ht
        next => cases hn
      next => cases hn

/-- What a step of thread `t` is. -/
theorem Machine.next_step {M : Machine W Op Resp ε Call Res} {σ σ' : Pool W Op Resp ε Call Res}
    {t : Nat} {pick : M.Pick}
    (hn : M.next σ (.step t pick) = some σ') :
    ∃ call w₀ op k r, σ.threads[t]? = some ⟨call, w₀, .waiting op k⟩ ∧
      M.exec t op pick σ.world = some (r, σ'.world) ∧
      σ'.threads = σ.threads.set t ⟨call, w₀, settle σ'.world (k r)⟩ := by
  simp only [Machine.next] at hn
  split at hn
  next call w₀ op k hth =>
    split at hn
    next r w' hex =>
      cases hn
      exact ⟨call, w₀, op, k, r, hth, hex, rfl⟩
    next => cases hn
  next => cases hn

/-- A thread keeps its call, and remembers where it started. -/
theorem Machine.next_thread {M : Machine W Op Resp ε Call Res} {σ σ' : Pool W Op Resp ε Call Res}
    {a : Act M} (hn : M.next σ a = some σ') {t : Nat} {call : Call} {w₀ : W}
    {status : Status W Op Resp ε (Res call)} (hth : σ.threads[t]? = some ⟨call, w₀, status⟩) :
    ∃ status', σ'.threads[t]? = some ⟨call, w₀, status'⟩ := by
  cases a with
  | spawn c =>
    simp only [Machine.next] at hn
    split at hn
    next =>
      cases hn
      exact ⟨status, by rw [List.getElem?_append_left (List.getElem?_eq_some_iff.mp hth).1, hth]⟩
    next => cases hn
  | env e =>
    simp only [Machine.next, Option.map_eq_some_iff] at hn
    obtain ⟨w', -, rfl⟩ := hn
    exact ⟨status, hth⟩
  | step u pick =>
    obtain ⟨call', w₁, op, k, r, hu, -, hthreads⟩ := Machine.next_step hn
    rw [hthreads]
    by_cases hut : u = t
    · subst hut
      rw [hth] at hu
      cases hu
      rw [List.getElem?_set_self (List.getElem?_eq_some_iff.mp hth).1]
      exact ⟨_, rfl⟩
    · rw [List.getElem?_set_ne hut]
      exact ⟨status, hth⟩

theorem Machine.run_thread {M : Machine W Op Resp ε Call Res} {as : List (Act M)} :
    ∀ {σ σ' : Pool W Op Resp ε Call Res}, M.run σ as = some σ' → ∀ {t : Nat} {call : Call} {w₀ : W}
      {status : Status W Op Resp ε (Res call)}, σ.threads[t]? = some ⟨call, w₀, status⟩ →
      ∃ status', σ'.threads[t]? = some ⟨call, w₀, status'⟩ := by
  induction as with
  | nil =>
    intro σ σ' hr t call w₀ status hth
    cases hr
    exact ⟨status, hth⟩
  | cons a as ih =>
    intro σ σ' hr t call w₀ status hth
    simp only [Machine.run, Option.bind_eq_some_iff] at hr
    obtain ⟨ρ, hn, hr⟩ := hr
    obtain ⟨status₁, hth₁⟩ := Machine.next_thread hn hth
    exact ih hr hth₁

/-- A thread that was not there yet was spawned on the way, in the world it started in. -/
theorem Machine.run_spawned {M : Machine W Op Resp ε Call Res} {as : List (Act M)} :
    ∀ {σ σ' : Pool W Op Resp ε Call Res}, M.run σ as = some σ' →
      ∀ {u : Nat} {th : Thread W Op Resp ε Call Res}, σ.threads.length ≤ u →
      σ'.threads[u]? = some th → ∃ bs cs ρ, as = bs ++ .spawn th.call :: cs ∧
        M.run σ bs = some ρ ∧ ρ.threads.length = u ∧ ρ.world = th.start ∧
        M.run ρ (.spawn th.call :: cs) = some σ' := by
  induction as with
  | nil =>
    intro σ σ' hr u th hu hth
    cases hr
    exact absurd (List.getElem?_eq_some_iff.mp hth).1 (Nat.not_lt_of_le hu)
  | cons a as ih =>
    intro σ σ' hr u th hu hth
    have hrun := hr
    simp only [Machine.run, Option.bind_eq_some_iff] at hr
    obtain ⟨ρ, hn, hr⟩ := hr
    rcases Nat.lt_or_ge u ρ.threads.length with hlt | hge
    · -- the first action made it
      cases a with
      | spawn c =>
        simp only [Machine.next] at hn
        split at hn
        next =>
          cases hn
          rw [List.length_append, List.length_singleton] at hlt
          obtain rfl : σ.threads.length = u := by omega
          obtain ⟨status, hth'⟩ := Machine.run_thread hr (by exact List.getElem?_concat_length)
          rw [hth] at hth'
          cases hth'
          exact ⟨[], as, σ, rfl, rfl, rfl, rfl, hrun⟩
        next => cases hn
      | env e =>
        simp only [Machine.next, Option.map_eq_some_iff] at hn
        obtain ⟨w', -, rfl⟩ := hn
        exact absurd hlt (Nat.not_lt_of_le hu)
      | step t pick =>
        obtain ⟨call', w₁, op, k, r, -, -, hthreads⟩ := Machine.next_step hn
        rw [hthreads, List.length_set] at hlt
        exact absurd hlt (Nat.not_lt_of_le hu)
    · obtain ⟨bs, cs, τ, rfl, hbs, hlen, hworld, hcs⟩ := ih hr hge hth
      exact ⟨a :: bs, cs, τ, rfl, by simp only [Machine.run, hn, Option.bind_some, hbs], hlen,
        hworld, hcs⟩

/-- A thread whose request can be answered can step. -/
theorem Machine.exists_next_step {M : Machine W Op Resp ε Call Res} {σ : Pool W Op Resp ε Call Res}
    {t : Nat} {call : Call} {w₀ w' : W} {op : Op} {k : Resp op → Prog Op Resp ε (Res call)}
    {pick : M.Pick} {r : Resp op} (hth : σ.threads[t]? = some ⟨call, w₀, .waiting op k⟩)
    (hex : M.exec t op pick σ.world = some (r, w')) : ∃ σ', M.next σ (.step t pick) = some σ' :=
  ⟨⟨w', σ.threads.set t ⟨call, w₀, settle w' (k r)⟩⟩, by simp only [Machine.next, hth, hex]⟩

end Machine

/-! ## Rely and guarantee

A protocol is what the threads agree on: an invariant of the world, and for each thread the
changes it tolerates from everybody else.  `fresh t` is what is known of a thread id nobody has
used yet. -/

section Rules

variable {W Op : Type} {Resp : Op → Type} {ε Call : Type} {Res : Call → Type}

/-- The invariant, the rely of each thread, and what holds of an unused thread id. -/
structure Protocol (M : Machine W Op Resp ε Call Res) where
  inv : W → Prop
  rely : Nat → W → W → Prop
  fresh : Nat → W → Prop
  /-- What a finished call owes, from the world it started in to the one it finished in. -/
  post : Nat → (c : Call) → W → Except ε (Res c) → W → Prop
  rely_refl : ∀ t w, rely t w w
  rely_trans : ∀ {t w w' w''}, rely t w w' → rely t w' w'' → rely t w w''
  fresh_rely : ∀ {t w w'}, fresh t w → rely t w w' → fresh t w'
  env_ok : ∀ {e w w'}, inv w → M.env e w = some w' → inv w' ∧ ∀ t, rely t w w'

variable {M : Machine W Op Resp ε Call Res} {P : Protocol M} {t : Nat} {α β : Type}

/-- One executed request is good for the protocol: it keeps the invariant and everybody
    else's rely. -/
structure Protocol.StepOk (P : Protocol M) (t : Nat) (w w' : W) : Prop where
  inv : P.inv w'
  others : ∀ u, u ≠ t → P.rely u w w'

/-- **Weakest precondition under interference.** -/
def Protocol.wp (P : Protocol M) (t : Nat) :
    Prog Op Resp ε α → (Except ε α → W → Prop) → W → Prop
  | .ret a, Q, w => Q (.ok a) w
  | .throw e, Q, w => Q (.error e) w
  | .call op k, Q, w => ∀ w', P.rely t w w' → P.inv w' → ∀ pick r w'',
      M.exec t op pick w' = some (r, w'') → P.StepOk t w' w'' ∧ P.wp t (k r) Q w''

namespace Protocol

variable {Q Q' : Except ε α → W → Prop} {w w' : W}

@[simp] theorem wp_ret {a : α} : P.wp t (.ret a) Q w ↔ Q (.ok a) w := Iff.rfl

@[simp] theorem wp_throw {e : ε} : P.wp t (.throw e) Q w ↔ Q (.error e) w := Iff.rfl

/-- Consequence. -/
theorem wp_mono {p : Prog Op Resp ε α} (h : P.wp t p Q w) (hQ : ∀ r w', Q r w' → Q' r w') :
    P.wp t p Q' w := by
  induction p generalizing w with
  | ret a => exact hQ _ _ h
  | throw e => exact hQ _ _ h
  | call op k ih =>
    intro w' hrel hinv pick r w'' hex
    exact ⟨(h w' hrel hinv pick r w'' hex).1, ih r (h w' hrel hinv pick r w'' hex).2⟩

/-- A program started in a good world ends in one. -/
theorem wp_inv {p : Prog Op Resp ε α} (h : P.wp t p Q w) (hinv : P.inv w) :
    P.wp t p (fun r w' => Q r w' ∧ P.inv w') w := by
  induction p generalizing w with
  | ret a => exact ⟨h, hinv⟩
  | throw e => exact ⟨h, hinv⟩
  | call op k ih =>
    intro w' hrel hinv' pick r w'' hex
    obtain ⟨hok, hrest⟩ := h w' hrel hinv' pick r w'' hex
    exact ⟨hok, ih r hrest hok.inv⟩

/-- A program that never rejects resolves. -/
theorem wp_noThrow {p : Prog Op Resp ε α} (h : P.wp t p Q w) (hp : p.NoThrow) :
    P.wp t p (fun r w' => Q r w' ∧ ∃ a, r = .ok a) w := by
  induction p generalizing w with
  | ret a => exact ⟨h, a, rfl⟩
  | throw e => exact absurd hp id
  | call op k ih =>
    intro w' hrel hinv pick r w'' hex
    exact ⟨(h w' hrel hinv pick r w'' hex).1, ih r (h w' hrel hinv pick r w'' hex).2 (hp r)⟩

/-- Sequencing: the second program starts in the world the first one ended in. -/
theorem wp_bind {p : Prog Op Resp ε α} {f : α → Prog Op Resp ε β}
    {R : Except ε β → W → Prop}
    (h : P.wp t p (fun r w' => match r with
      | .ok a => P.wp t (f a) R w'
      | .error e => R (.error e) w') w) :
    P.wp t (p.bind f) R w := by
  induction p generalizing w with
  | ret a => exact h
  | throw e => exact h
  | call op k ih =>
    intro w' hrel hinv pick r w'' hex
    exact ⟨(h w' hrel hinv pick r w'' hex).1, ih r (h w' hrel hinv pick r w'' hex).2⟩

/-- Sequencing, with the two outcomes of the first program told apart. -/
theorem wp_seq {p : Prog Op Resp ε α} {f : α → Prog Op Resp ε β}
    {R : Except ε β → W → Prop} (h : P.wp t p Q w)
    (hok : ∀ a w', Q (.ok a) w' → P.wp t (f a) R w')
    (herr : ∀ e w', Q (.error e) w' → R (.error e) w') : P.wp t (p.bind f) R w := by
  refine wp_bind (wp_mono h ?_)
  intro r w' hr
  cases r with
  | ok a => exact hok a w' hr
  | error e => exact herr e w' hr

/-- `try … catch`: the handler starts in the world the rejection happened in. -/
theorem wp_tryCatch {p : Prog Op Resp ε α} {h : ε → Prog Op Resp ε α}
    (hp : P.wp t p (fun r w' => match r with
      | .ok a => Q (.ok a) w'
      | .error e => P.wp t (h e) Q w') w) :
    P.wp t (p.tryCatch h) Q w := by
  induction p generalizing w with
  | ret a => exact hp
  | throw e => exact hp
  | call op k ih =>
    intro w' hrel hinv pick r w'' hex
    exact ⟨(hp w' hrel hinv pick r w'' hex).1, ih r (hp w' hrel hinv pick r w'' hex).2⟩

/-- A captured program always resolves, with the outcome of the original. -/
theorem wp_attempt {p : Prog Op Resp ε α} {R : Except ε (Except ε α) → W → Prop}
    (h : P.wp t p (fun r w' => R (.ok r) w') w) : P.wp t p.attempt R w := by
  refine wp_tryCatch (wp_bind (wp_mono h ?_))
  intro r w' hr
  cases r with
  | ok a => exact hr
  | error e => exact hr

/-- Capture an outcome and go on with it. -/
theorem wp_attempt_bind {p : Prog Op Resp ε α} {f : Except ε α → Prog Op Resp ε β}
    {R : Except ε β → W → Prop} (h : P.wp t p Q w)
    (hf : ∀ r w', Q r w' → P.wp t (f r) R w') : P.wp t (p.attempt.bind f) R w := by
  refine wp_bind (wp_attempt (wp_mono h ?_))
  intro r w' hr
  exact hf r w' hr

/-- Interference before a request is part of the request. -/
theorem wp_rely {op : Op} {k : Resp op → Prog Op Resp ε α}
    (h : P.wp t (.call op k) Q w) (hrel : P.rely t w w') : P.wp t (.call op k) Q w' :=
  fun w₁ hrel₁ => h w₁ (P.rely_trans hrel hrel₁)

/-- **Rule for `gather`.**  `S` is a preorder the single program moves along and `F a b` a fact
    about an element and its value that survives `S`; then the facts hold of all pairs at the
    end.  `C` is what every single program needs to start. -/
theorem wp_gather {f : α → Prog Op Resp ε β} {S : W → W → Prop} {C : W → Prop}
    {F : α → β → W → Prop} (hrefl : ∀ w, S w w)
    (htrans : ∀ {a b c}, S a b → S b c → S a c)
    (hC : ∀ {a b}, C a → S a b → C b) (hF : ∀ {x y a b}, F x y a → S a b → F x y b)
    (xs : List α) (hw : C w)
    (hf : ∀ x ∈ xs, ∀ w, C w →
      P.wp t (f x) (fun r w' => S w w' ∧ ∀ b, r = .ok b → F x b w') w) :
    P.wp t (Prog.gather f xs) (fun r w' => S w w' ∧ ∀ ps, r = .ok ps →
      ps.map Prod.fst = xs ∧ ∀ p ∈ ps, F p.1 p.2 w') w := by
  induction xs generalizing w with
  | nil =>
    refine ⟨hrefl w, ?_⟩
    intro ps hps
    cases hps
    simp
  | cons x xs ih =>
    refine wp_bind (wp_mono (hf x (by simp) w hw) ?_)
    rintro (e | b) w₁ ⟨hS₁, hF₁⟩
    · exact ⟨hS₁, fun ps h => by cases h⟩
    · have hrest := ih (hC hw hS₁) fun y hy => hf y (by simp [hy])
      refine wp_bind (wp_mono hrest ?_)
      rintro (e | rest) w₂ ⟨hS₂, hF₂⟩
      · exact ⟨htrans hS₁ hS₂, fun ps h => by cases h⟩
      · refine ⟨htrans hS₁ hS₂, ?_⟩
        intro ps hps
        cases hps
        obtain ⟨hkeys, hall⟩ := hF₂ rest rfl
        refine ⟨by simp [hkeys], ?_⟩
        intro p hp
        rcases List.mem_cons.mp hp with rfl | hp
        · exact hF (hF₁ b rfl) hS₂
        · exact hall p hp

end Protocol

end Rules

/-! ## Soundness

The invariant of the whole pool: the world is good, unused ids are fresh, every thread at a
request still has its `wp`, and every finished thread met its postcondition where it finished
and has only seen its rely since. -/

section Sound

variable {W Op : Type} {Resp : Op → Type} {ε Call : Type} {Res : Call → Type}
variable {M : Machine W Op Resp ε Call Res} {P : Protocol M}

/-- What the pool invariant says of thread `t` in world `w`. -/
def Protocol.ThreadOk (P : Protocol M) (t : Nat) (w : W) (th : Thread W Op Resp ε Call Res) :
    Prop :=
  match th.status with
  | .waiting op k => P.wp t (.call op k) (P.post t th.call th.start) w
  | .done r w₁ => P.post t th.call th.start r w₁ ∧ P.rely t w₁ w

/-- The invariant of the pool. -/
structure Protocol.PoolOk (P : Protocol M) (σ : Pool W Op Resp ε Call Res) : Prop where
  inv : P.inv σ.world
  fresh : ∀ t, σ.threads.length ≤ t → P.fresh t σ.world
  thread : ∀ t th, σ.threads[t]? = some th → P.ThreadOk t σ.world th

/-- Every body meets its postcondition when spawned under an unused id. -/
def Protocol.BodiesOk (P : Protocol M) : Prop :=
  ∀ t c w, P.inv w → P.fresh t w → M.accepts c w = true → P.wp t (M.body t c) (P.post t c w) w

namespace Protocol

theorem threadOk_rely {t : Nat} {w w' : W} {th : Thread W Op Resp ε Call Res}
    (h : P.ThreadOk t w th) (hrel : P.rely t w w') : P.ThreadOk t w' th := by
  unfold ThreadOk at h ⊢
  cases hs : th.status with
  | waiting op k =>
    simp only [hs] at h ⊢
    exact wp_rely h hrel
  | done r w₁ =>
    simp only [hs] at h ⊢
    exact ⟨h.1, P.rely_trans h.2 hrel⟩

theorem threadOk_settle {t : Nat} {w w₀ : W} {c : Call} {p : Prog Op Resp ε (Res c)}
    (h : P.wp t p (P.post t c w₀) w) : P.ThreadOk t w ⟨c, w₀, settle w p⟩ := by
  cases p with
  | ret a => exact ⟨h, P.rely_refl t w⟩
  | throw e => exact ⟨h, P.rely_refl t w⟩
  | call op k => exact h

/-- What one action of the pool does to the world, seen by a thread that did not act. -/
theorem next_rely {σ σ' : Pool W Op Resp ε Call Res} {a : Act M} (h : P.PoolOk σ)
    (hn : M.next σ a = some σ') {u : Nat} (hu : σ.threads.length ≤ u) :
    P.rely u σ.world σ'.world := by
  cases a with
  | spawn c =>
    simp only [Machine.next] at hn
    split at hn
    · cases hn; exact P.rely_refl _ _
    · cases hn
  | env e =>
    simp only [Machine.next, Option.map_eq_some_iff] at hn
    obtain ⟨w', henv, rfl⟩ := hn
    exact (P.env_ok h.inv henv).2 u
  | step t pick =>
    simp only [Machine.next] at hn
    split at hn
    next c w₀ op k hth =>
      split at hn
      next r w' hex =>
        cases hn
        have hwp := h.thread t _ hth
        have hlt : t < σ.threads.length := by
          rcases Nat.lt_or_ge t σ.threads.length with hl | hl
          · exact hl
          · rw [List.getElem?_eq_none hl] at hth; cases hth
        exact (hwp σ.world (P.rely_refl _ _) h.inv pick r w' hex).1.others u (by omega)
      next => cases hn
    next => cases hn

/-- **One action keeps the pool invariant.** -/
theorem next_ok (hb : P.BodiesOk) {σ σ' : Pool W Op Resp ε Call Res} {a : Act M}
    (h : P.PoolOk σ) (hn : M.next σ a = some σ') : P.PoolOk σ' := by
  cases a with
  | spawn c =>
    simp only [Machine.next] at hn
    split at hn
    next hadm =>
      cases hn
      refine ⟨h.inv, ?_, ?_⟩
      · intro t ht
        exact h.fresh t (by simp at ht; omega)
      · intro t th hth
        rw [List.getElem?_append] at hth
        split at hth
        · exact h.thread t th hth
        next hge =>
          have ht : t = σ.threads.length := by
            rcases Nat.lt_or_ge t (σ.threads.length + 1) with hl | hl
            · omega
            · rw [List.getElem?_eq_none (by simp; omega)] at hth; cases hth
          subst ht
          simp only [Nat.sub_self, List.getElem?_cons_zero, Option.some.injEq] at hth
          subst hth
          exact threadOk_settle (hb _ c _ h.inv (h.fresh _ (Nat.le_refl _)) hadm)
    next => cases hn
  | env e =>
    simp only [Machine.next, Option.map_eq_some_iff] at hn
    obtain ⟨w', henv, rfl⟩ := hn
    obtain ⟨hinv, hrel⟩ := P.env_ok h.inv henv
    exact ⟨hinv, fun t ht => P.fresh_rely (h.fresh t ht) (hrel t),
      fun t th hth => threadOk_rely (h.thread t th hth) (hrel t)⟩
  | step t pick =>
    simp only [Machine.next] at hn
    split at hn
    next c w₀ op k hth =>
      split at hn
      next r w' hex =>
        cases hn
        have hlt : t < σ.threads.length := by
          rcases Nat.lt_or_ge t σ.threads.length with hl | hl
          · exact hl
          · rw [List.getElem?_eq_none hl] at hth; cases hth
        obtain ⟨hok, hwp⟩ := h.thread t _ hth σ.world (P.rely_refl _ _) h.inv pick r w' hex
        refine ⟨hok.inv, ?_, ?_⟩
        · intro u hu
          simp only [List.length_set] at hu
          exact P.fresh_rely (h.fresh u hu) (hok.others u (by omega))
        · intro u th hu
          -- the acting thread goes on with its continuation, the others saw their rely
          by_cases htu : t = u
          · subst htu
            rw [List.getElem?_set_self hlt] at hu
            cases hu
            exact threadOk_settle hwp
          · rw [List.getElem?_set_ne htu] at hu
            exact threadOk_rely (h.thread u th hu) (hok.others u (fun e => htu e.symm))
      next => cases hn
    next => cases hn

/-- Spawned threads are never forgotten. -/
theorem next_length {σ σ' : Pool W Op Resp ε Call Res} {a : Act M}
    (hn : M.next σ a = some σ') : σ.threads.length ≤ σ'.threads.length := by
  cases a with
  | spawn c =>
    simp only [Machine.next] at hn
    split at hn
    · cases hn; simp
    · cases hn
  | env e =>
    simp only [Machine.next, Option.map_eq_some_iff] at hn
    obtain ⟨w', _, rfl⟩ := hn
    exact Nat.le_refl _
  | step t pick =>
    simp only [Machine.next] at hn
    split at hn
    · split at hn
      · cases hn; simp
      · cases hn
    · cases hn

theorem run_length {σ σ' : Pool W Op Resp ε Call Res} {as : List (Act M)}
    (hr : M.run σ as = some σ') : σ.threads.length ≤ σ'.threads.length := by
  induction as generalizing σ with
  | nil => cases hr; exact Nat.le_refl _
  | cons a as ih =>
    simp only [Machine.run, Option.bind_eq_some_iff] at hr
    obtain ⟨ρ, hn, hr⟩ := hr
    exact Nat.le_trans (next_length hn) (ih hr)

/-- **Soundness.**  A run from a good pool ends in a good pool. -/
theorem sound (hb : P.BodiesOk) {σ σ' : Pool W Op Resp ε Call Res} {as : List (Act M)}
    (h : P.PoolOk σ) (hr : M.run σ as = some σ') : P.PoolOk σ' := by
  induction as generalizing σ with
  | nil => cases hr; exact h
  | cons a as ih =>
    simp only [Machine.run, Option.bind_eq_some_iff] at hr
    obtain ⟨ρ, hn, hr⟩ := hr
    exact ih (next_ok hb h hn) hr

/-- What a whole run does to the world, seen under an id that is unused at its end. -/
theorem run_rely (hb : P.BodiesOk) {σ σ' : Pool W Op Resp ε Call Res} {as : List (Act M)}
    (h : P.PoolOk σ) (hr : M.run σ as = some σ') {u : Nat} (hu : σ'.threads.length ≤ u) :
    P.rely u σ.world σ'.world := by
  induction as generalizing σ with
  | nil => cases hr; exact P.rely_refl _ _
  | cons a as ih =>
    simp only [Machine.run, Option.bind_eq_some_iff] at hr
    obtain ⟨ρ, hn, hr⟩ := hr
    have hlen : σ.threads.length ≤ u :=
      Nat.le_trans (Nat.le_trans (next_length hn) (run_length hr)) hu
    exact P.rely_trans (next_rely h hn hlen) (ih (next_ok hb h hn) hr)

/-- A pool with no threads over a good world is good. -/
theorem poolOk_init {w : W} (hinv : P.inv w) (hfresh : ∀ t, P.fresh t w) :
    P.PoolOk ⟨w, []⟩ :=
  ⟨hinv, fun t _ => hfresh t, fun t th h => by simp at h⟩

/-- The protocol without interference: threads know nothing of the world but an invariant, which
    holds because of what they ask for. -/
def plain (M : Machine W Op Resp ε Call Res) (I : W → Prop)
    (henv : ∀ {e w w'}, I w → M.env e w = some w' → I w') : Protocol M where
  inv := I
  rely := fun _ _ _ => True
  fresh := fun _ _ => True
  post := fun _ _ _ _ _ => True
  rely_refl := fun _ _ => trivial
  rely_trans := fun _ _ => trivial
  fresh_rely := fun _ _ => trivial
  env_ok := fun hinv he => ⟨henv hinv he, fun _ => trivial⟩

theorem plain_wp {I : W → Prop} {henv : ∀ {e w w'}, I w → M.env e w = some w' → I w'}
    {G : Op → Prop} {t : Nat} {α : Type} {Q : α → Prop}
    (hexec : ∀ {op pick r w w'}, I w → G op → M.exec t op pick w = some (r, w') → I w')
    {p : Prog Op Resp ε α} (hp : p.Asks G Q) (w : W) :
    (plain M I henv).wp t p (fun _ _ => True) w := by
  induction p generalizing w with
  | ret a => trivial
  | throw e => trivial
  | call op k ih =>
    intro w' _ hinv pick r w'' hex
    exact ⟨⟨hexec hinv hp.1 hex, fun _ _ => trivial⟩, ih r (hp.2 r) w''⟩

/-- **An invariant of requests.**  If every request of every call meets `G`, and neither such a
    request nor the environment breaks `I`, then `I` holds after every run. -/
theorem invariant_of_asks {I : W → Prop} {G : Op → Prop}
    (henv : ∀ {e w w'}, I w → M.env e w = some w' → I w')
    (hexec : ∀ {t op pick r w w'}, I w → G op → M.exec t op pick w = some (r, w') → I w')
    (hbody : ∀ t c, (M.body t c).Asks G (fun _ => True)) {w : W} (hw : I w)
    {σ : Pool W Op Resp ε Call Res} {as : List (Act M)} (hr : M.run ⟨w, []⟩ as = some σ) :
    I σ.world := by
  have hb : (plain M I henv).BodiesOk := by
    intro t c w₀ _ _ _
    exact plain_wp hexec (hbody t c) w₀
  have hinit : (plain M I henv).PoolOk ⟨w, []⟩ := poolOk_init hw fun _ => trivial
  exact (sound hb hinit hr).inv

end Protocol

end Sound

/-! ## Completion

A step replaces one thread's program by a subtree of it.  So no schedule goes on for ever, and a
pool in which somebody can always step can be run until everybody is done. -/

section Completion

variable {W Op : Type} {Resp : Op → Type} {ε Call : Type} {Res : Call → Type}
variable {M : Machine W Op Resp ε Call Res}

/-- What is left of a thread. -/
def Thread.rest (th : Thread W Op Resp ε Call Res) : Prog Op Resp ε (Res th.call) :=
  match th.status with
  | .waiting op k => .call op k
  | .done (.ok a) _ => .ret a
  | .done (.error e) _ => .throw e

theorem Thread.rest_settle {call : Call} {w₀ w : W} (p : Prog Op Resp ε (Res call)) :
    (Thread.rest ⟨call, w₀, settle w p⟩ : Prog Op Resp ε (Res call)) = p := by
  cases p <;> rfl

/-- Nobody has anything left to do. -/
def Pool.Finished (σ : Pool W Op Resp ε Call Res) : Prop :=
  ∀ (t : Nat) (th : Thread W Op Resp ε Call Res), σ.threads[t]? = some th →
    ∃ r w, th.status = .done r w

/-- One element of the list made smaller. -/
inductive Shrinks {α : Type} (r : α → α → Prop) : List α → List α → Prop
  | head {a' a : α} (l : List α) : r a' a → Shrinks r (a' :: l) (a :: l)
  | tail (a : α) {l' l : List α} : Shrinks r l' l → Shrinks r (a :: l') (a :: l)

theorem Shrinks.set {α : Type} {r : α → α → Prop} {a' a : α} (h : r a' a) :
    ∀ {l : List α} {i : Nat}, l[i]? = some a → Shrinks r (l.set i a') l
  | [], _, hl => by cases hl
  | x :: l, 0, hl => by
    obtain rfl : x = a := by simpa using hl
    exact .head l h
  | x :: l, i + 1, hl => .tail x (Shrinks.set h (by simpa using hl))

theorem Shrinks.wellFounded {α : Type} {r : α → α → Prop} (h : WellFounded r) :
    WellFounded (Shrinks r) := by
  refine ⟨fun l => ?_⟩
  induction l with
  | nil => exact ⟨_, fun l' hl => by cases hl⟩
  | cons a l ih =>
    -- on the head, and for a fixed head on the tail
    induction h.apply a generalizing l with
    | intro a _ iha =>
      induction ih with
      | intro l hl ihl =>
        refine ⟨_, fun l' hstep => ?_⟩
        cases hstep with
        | head _ hr => exact iha _ hr l ⟨l, hl⟩
        | tail _ hs => exact ihl _ hs

/-- The program goes on with a subtree of another one of the same call. -/
inductive Smaller : (p q : Σ call : Call, Prog Op Resp ε (Res call)) → Prop
  | mk (call : Call) (op : Op) (k : Resp op → Prog Op Resp ε (Res call)) (r : Resp op) :
      Smaller ⟨call, k r⟩ ⟨call, .call op k⟩

theorem Smaller.wellFounded :
    WellFounded (Smaller : (p q : Σ call : Call, Prog Op Resp ε (Res call)) → Prop) := by
  refine ⟨fun ⟨call, p⟩ => ?_⟩
  induction p with
  | ret a => exact ⟨_, fun q h => by cases h⟩
  | throw e => exact ⟨_, fun q h => by cases h⟩
  | call op k ih =>
    refine ⟨_, fun q h => ?_⟩
    cases h
    exact ih _

/-- **No schedule goes on for ever** without a new call. -/
theorem Machine.steps_wellFounded (M : Machine W Op Resp ε Call Res) :
    WellFounded fun σ' σ : Pool W Op Resp ε Call Res =>
      ∃ t pick, M.next σ (.step t pick) = some σ' := by
  refine Subrelation.wf ?_ (InvImage.wf
    (fun σ : Pool W Op Resp ε Call Res => σ.threads.map fun th => (⟨th.call, th.rest⟩ :
      Σ call : Call, Prog Op Resp ε (Res call))) (Shrinks.wellFounded Smaller.wellFounded))
  rintro σ' σ ⟨t, pick, hn⟩
  obtain ⟨call, w₀, op, k, r, hth, -, hthreads⟩ := Machine.next_step hn
  show Shrinks Smaller (σ'.threads.map _) (σ.threads.map _)
  rw [hthreads, List.map_set, Thread.rest_settle]
  refine Shrinks.set (Smaller.mk call op k r) ?_
  rw [List.getElem?_map, hth]
  rfl

/-- **Completion.**  If in every good pool with an unfinished thread somebody can step, and steps
    keep the pool good, a good pool can be run until everybody is done. -/
theorem Machine.completes {I : Pool W Op Resp ε Call Res → Prop}
    (hstep : ∀ σ t pick σ', I σ → M.next σ (.step t pick) = some σ' → I σ')
    (hlive : ∀ σ, I σ → ¬ σ.Finished → ∃ t pick σ', M.next σ (.step t pick) = some σ')
    (σ : Pool W Op Resp ε Call Res) (hσ : I σ) :
    ∃ steps : List (Nat × M.Pick), ∃ σ', M.run σ (steps.map fun s => .step s.1 s.2) = some σ' ∧
      σ'.Finished ∧ I σ' := by
  induction σ using M.steps_wellFounded.induction with
  | _ σ ih =>
    by_cases hfin : σ.Finished
    · exact ⟨[], σ, rfl, hfin, hσ⟩
    · obtain ⟨t, pick, ρ, hn⟩ := hlive σ hσ hfin
      obtain ⟨steps, σ', hrun, hdone, hI⟩ := ih ρ ⟨t, pick, hn⟩ (hstep σ t pick ρ hσ hn)
      refine ⟨(t, pick) :: steps, σ', ?_, hdone, hI⟩
      rw [List.map_cons, Machine.run, hn]
      exact hrun

end Completion

/-! ## Confined machines

A run may be known to take certain steps only.  The machine that can take no others runs the same
programs, and what a protocol proves over it holds of such runs. -/

section Confined

variable {W Op : Type} {Resp : Op → Type} {ε Call : Type} {Res : Call → Type}
variable {M : Machine W Op Resp ε Call Res}

/-- Which calls are made, which requests are executed, and which steps the world takes. -/
structure Confinement (M : Machine W Op Resp ε Call Res) where
  call : Call → Prop
  exec : Nat → Op → M.Pick → W → W → Prop
  env : M.Env → W → W → Prop

open Classical in
/-- The machine that takes the steps of a confinement and no others. -/
noncomputable def Machine.confine (M : Machine W Op Resp ε Call Res) (C : Confinement M) :
    Machine W Op Resp ε Call Res where
  Pick := M.Pick
  exec := fun t op pick w => (M.exec t op pick w).filter fun a => decide (C.exec t op pick w a.2)
  Env := M.Env
  env := fun e w => (M.env e w).filter fun w' => decide (C.env e w w')
  body := M.body
  accepts := fun call w => M.accepts call w && decide (C.call call)

variable {C : Confinement M}

theorem Machine.confine_exec {t : Nat} {op : Op} {pick : M.Pick} {w w' : W} {r : Resp op} :
    (M.confine C).exec t op pick w = some (r, w') ↔
      M.exec t op pick w = some (r, w') ∧ C.exec t op pick w w' := by
  simp only [Machine.confine, Option.filter_eq_some_iff, decide_eq_true_eq]

theorem Machine.confine_env {e : M.Env} {w w' : W} :
    (M.confine C).env e w = some w' ↔ M.env e w = some w' ∧ C.env e w w' := by
  simp only [Machine.confine, Option.filter_eq_some_iff, decide_eq_true_eq]

theorem Machine.confine_accepts {call : Call} {w : W} :
    (M.confine C).accepts call w = true ↔ M.accepts call w = true ∧ C.call call := by
  simp only [Machine.confine, Bool.and_eq_true, decide_eq_true_eq]

/-- The action, taken by the confined machine. -/
def Act.confine (C : Confinement M) : Act M → Act (M.confine C)
  | .spawn call => .spawn call
  | .step t pick => .step t pick
  | .env e => .env e

/-- The action is one of the confinement, from pool to pool. -/
def Confinement.Allows (C : Confinement M) (σ σ' : Pool W Op Resp ε Call Res) : Act M → Prop
  | .spawn call => C.call call
  | .step t pick => ∀ call w₀ op k, σ.threads[t]? = some ⟨call, w₀, .waiting op k⟩ →
      C.exec t op pick σ.world σ'.world
  | .env e => C.env e σ.world σ'.world

/-- What the machine does within the confinement, the confined machine does. -/
theorem Machine.next_confine {σ σ' : Pool W Op Resp ε Call Res} {a : Act M}
    (hn : M.next σ a = some σ') (ha : C.Allows σ σ' a) :
    (M.confine C).next σ (a.confine C) = some σ' := by
  cases a with
  | spawn call =>
    simp only [Machine.next] at hn
    split at hn
    next hadm =>
      cases hn
      show (if (M.confine C).accepts call σ.world then _ else _) = _
      rw [if_pos (Machine.confine_accepts.mpr ⟨hadm, ha⟩)]
      rfl
    next => cases hn
  | env e =>
    simp only [Machine.next, Option.map_eq_some_iff] at hn
    obtain ⟨w', henv, rfl⟩ := hn
    have hconf : (M.confine C).env e σ.world = some w' := Machine.confine_env.mpr ⟨henv, ha⟩
    show ((M.confine C).env e σ.world).map _ = _
    rw [hconf]
    rfl
  | step t pick =>
    simp only [Machine.next] at hn
    split at hn
    next call w₀ op k hth =>
      split at hn
      next r w' hex =>
        cases hn
        have hconf : (M.confine C).exec t op pick σ.world = some (r, w') :=
          Machine.confine_exec.mpr ⟨hex, ha call w₀ op k hth⟩
        simp only [Act.confine, Machine.next, hth, hconf]
      next => cases hn
    next => cases hn

/-! ### Conditions on a run -/

/-- Every action of the run meets `p` in the state it is taken in. -/
def Machine.along (M : Machine W Op Resp ε Call Res)
    (p : Pool W Op Resp ε Call Res → Act M → Bool) :
    Pool W Op Resp ε Call Res → List (Act M) → Bool
  | _, [] => true
  | σ, a :: as => p σ a && ((M.next σ a).elim true fun σ' => M.along p σ' as)

/-- What every action of such a run keeps, the run keeps. -/
theorem Machine.along_invariant {I : Pool W Op Resp ε Call Res → Prop}
    {p : Pool W Op Resp ε Call Res → Act M → Bool} {as : List (Act M)}
    (hstep : ∀ σ a σ', I σ → a ∈ as → p σ a = true → M.next σ a = some σ' → I σ') :
    ∀ {σ σ' : Pool W Op Resp ε Call Res}, I σ → M.along p σ as = true → M.run σ as = some σ' →
      I σ' := by
  induction as with
  | nil =>
    intro σ σ' hI _ hr
    cases hr
    exact hI
  | cons a as ih =>
    intro σ σ' hI hp hr
    simp only [Machine.run, Option.bind_eq_some_iff] at hr
    obtain ⟨ρ, hn, hr⟩ := hr
    simp only [Machine.along, Bool.and_eq_true, hn, Option.elim_some] at hp
    have hρ := hstep σ a ρ hI List.mem_cons_self hp.1 hn
    exact ih (fun σ b σ' hI hb => hstep σ b σ' hI (List.mem_cons_of_mem a hb)) hρ hp.2 hr

/-! ### What the threads of a pool go on to ask for -/

/-- The rest of the thread asks for requests in `G` of its call only. -/
def Thread.Asks (G : Call → Op → Prop) (th : Thread W Op Resp ε Call Res) : Prop :=
  ∀ op k, th.status = .waiting op k → (Prog.call op k).Asks (G th.call) (fun _ => True)

theorem Thread.asks_settle {G : Call → Op → Prop} {call : Call} {w₀ w : W}
    {p : Prog Op Resp ε (Res call)} (h : p.Asks (G call) (fun _ => True)) :
    Thread.Asks G ⟨call, w₀, settle w p⟩ := by
  intro op k hstatus
  cases p with
  | ret a => cases hstatus
  | throw e => cases hstatus
  | call op' k' =>
    cases hstatus
    exact h

/-- One action keeps it, if a spawned call asks for nothing else. -/
theorem Machine.next_asks {G : Call → Op → Prop} {σ σ' : Pool W Op Resp ε Call Res} {a : Act M}
    (h : ∀ (t : Nat) (th : Thread W Op Resp ε Call Res), σ.threads[t]? = some th → th.Asks G)
    (hn : M.next σ a = some σ')
    (hbody : ∀ call, a = .spawn call →
      (M.body σ.threads.length call).Asks (G call) (fun _ => True)) :
    ∀ (t : Nat) (th : Thread W Op Resp ε Call Res), σ'.threads[t]? = some th → th.Asks G := by
  cases a with
  | spawn call =>
    simp only [Machine.next] at hn
    split at hn
    next =>
      cases hn
      intro t th hth
      rw [List.getElem?_append] at hth
      split at hth
      next => exact h t th hth
      next =>
        obtain rfl := List.mem_singleton.mp (List.mem_of_getElem? hth)
        exact Thread.asks_settle (hbody call rfl)
    next => cases hn
  | env e =>
    simp only [Machine.next, Option.map_eq_some_iff] at hn
    obtain ⟨w', -, rfl⟩ := hn
    exact h
  | step t pick =>
    simp only [Machine.next] at hn
    split at hn
    next call w₀ op k hth =>
      split at hn
      next r w' hex =>
        cases hn
        intro u th hu
        by_cases htu : t = u
        · subst htu
          rw [List.getElem?_set_self (List.getElem?_eq_some_iff.mp hth).1] at hu
          cases hu
          exact Thread.asks_settle ((h t _ hth op k rfl).2 r)
        · rw [List.getElem?_set_ne htu] at hu
          exact h u th hu
      next => cases hn
    next => cases hn

end Confined

end Async
