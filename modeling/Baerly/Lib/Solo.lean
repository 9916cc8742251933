import Baerly.Lib.Interleave

/-
  A thread that is scheduled alone.

  The dual of `wp`: `M.can t p Q w` says that from `w`, with only thread `t` scheduled and the world
  taking steps of its own in between, SOME answers bring `p` to an end in `Q`.

  CRUX: `Machine.can_run` turns it into a run of the pool, whatever else the pool holds.
-/

namespace Async

section Solo

variable {W Op : Type} {Resp : Op → Type} {ε Call : Type} {Res : Call → Type}

/-- The world gets from one state to another by itself. -/
inductive Machine.Drifts (M : Machine W Op Resp ε Call Res) : W → W → Prop where
  | refl (w : W) : M.Drifts w w
  | step {e : M.Env} {w w' w'' : W} (env : M.env e w = some w') (rest : M.Drifts w' w'') :
    M.Drifts w w''

/-- Thread `t`, scheduled alone, can end `p` in `Q`. -/
def Machine.can (M : Machine W Op Resp ε Call Res) (t : Nat) {α : Type} :
    Prog Op Resp ε α → (Except ε α → W → Prop) → W → Prop
  | .ret a, Q, w => Q (.ok a) w
  | .throw e, Q, w => Q (.error e) w
  | .call op k, Q, w => ∃ w₁, M.Drifts w w₁ ∧ ∃ pick r w₂,
      M.exec t op pick w₁ = some (r, w₂) ∧ M.can t (k r) Q w₂

variable {M : Machine W Op Resp ε Call Res} {t : Nat} {α β : Type}
variable {Q Q' : Except ε α → W → Prop} {w w' : W}

namespace Machine

/-- A request that is answered at once. -/
theorem can_call {op : Op} {k : Resp op → Prog Op Resp ε α} {pick : M.Pick} {r : Resp op}
    (hex : M.exec t op pick w = some (r, w')) (h : M.can t (k r) Q w') : M.can t (.call op k) Q w :=
  ⟨w, .refl w, pick, r, w', hex, h⟩

theorem can_mono {p : Prog Op Resp ε α} (h : M.can t p Q w) (hQ : ∀ r w', Q r w' → Q' r w') :
    M.can t p Q' w := by
  induction p generalizing w with
  | ret a => exact hQ _ _ h
  | throw e => exact hQ _ _ h
  | call op k ih =>
    obtain ⟨w₁, hdrift, pick, r, w₂, hex, hrest⟩ := h
    exact ⟨w₁, hdrift, pick, r, w₂, hex, ih r hrest⟩

theorem can_bind {p : Prog Op Resp ε α} {f : α → Prog Op Resp ε β} {R : Except ε β → W → Prop}
    (h : M.can t p Q w) (hok : ∀ a w', Q (.ok a) w' → M.can t (f a) R w')
    (herr : ∀ e w', Q (.error e) w' → R (.error e) w') : M.can t (p.bind f) R w := by
  induction p generalizing w with
  | ret a => exact hok a w h
  | throw e => exact herr e w h
  | call op k ih =>
    obtain ⟨w₁, hdrift, pick, r, w₂, hex, hrest⟩ := h
    exact ⟨w₁, hdrift, pick, r, w₂, hex, ih r hrest⟩

theorem can_tryCatch {p : Prog Op Resp ε α} {h : ε → Prog Op Resp ε α} {R : Except ε α → W → Prop}
    (hp : M.can t p Q w) (hok : ∀ a w', Q (.ok a) w' → R (.ok a) w')
    (herr : ∀ e w', Q (.error e) w' → M.can t (h e) R w') : M.can t (p.tryCatch h) R w := by
  induction p generalizing w with
  | ret a => exact hok a w hp
  | throw e => exact herr e w hp
  | call op k ih =>
    obtain ⟨w₁, hdrift, pick, r, w₂, hex, hrest⟩ := hp
    exact ⟨w₁, hdrift, pick, r, w₂, hex, ih r hrest⟩

/-- A captured program resolves with the outcome of the original. -/
theorem can_attempt {p : Prog Op Resp ε α} {R : Except ε (Except ε α) → W → Prop}
    (h : M.can t p Q w) (hQ : ∀ r w', Q r w' → R (.ok r) w') : M.can t p.attempt R w := by
  refine can_tryCatch (Q := fun r w' => ∃ x, Q x w' ∧ (match r with
    | .ok x' => x' = x
    | .error e => x = .error e)) (can_bind h ?_ ?_) ?_ ?_
  · exact fun a w' ha => ⟨.ok a, ha, rfl⟩
  · exact fun e w' he => ⟨.error e, he, rfl⟩
  · rintro x w' ⟨x', hx, rfl⟩
    exact hQ _ _ hx
  · rintro e w' ⟨x', hx, rfl⟩
    exact hQ _ _ hx

/-- Thread `t`, scheduled alone, can end `p` with a value and a world in `R`. -/
def resolves (M : Machine W Op Resp ε Call Res) (t : Nat) (p : Prog Op Resp ε α) (R : α → W → Prop)
    (w : W) : Prop :=
  M.can t p (fun r w' => ∃ a, r = .ok a ∧ R a w') w

section Resolves

variable {R : α → W → Prop}

theorem resolves_ret {a : α} (h : R a w) : M.resolves t (.ret a) R w :=
  ⟨a, rfl, h⟩

theorem resolves_mono {R' : α → W → Prop} {p : Prog Op Resp ε α} (h : M.resolves t p R w)
    (hR : ∀ a w', R a w' → R' a w') : M.resolves t p R' w :=
  can_mono h fun _ w' ⟨a, ha, hr⟩ => ⟨a, ha, hR a w' hr⟩

/-- What resolves goes on. -/
theorem can_seq {p : Prog Op Resp ε α} {f : α → Prog Op Resp ε β} {Q : Except ε β → W → Prop}
    (h : M.resolves t p R w) (hf : ∀ a w', R a w' → M.can t (f a) Q w') : M.can t (p.bind f) Q w := by
  refine can_bind h ?_ ?_
  · rintro a w' ⟨a', ha, hr⟩
    cases ha
    exact hf a w' hr
  · rintro e w' ⟨a, ha, -⟩
    cases ha

/-- A capture resolves with whatever the program ended with. -/
theorem resolves_attempt {p : Prog Op Resp ε α} (h : M.can t p Q w) : M.resolves t p.attempt Q w :=
  can_attempt h fun r _ hr => ⟨r, rfl, hr⟩

/-- One element after the other; `S` is what each may do to the world. -/
theorem resolves_gather {S : W → W → Prop} (hrefl : ∀ w, S w w)
    (htrans : ∀ {a b c}, S a b → S b c → S a c) {f : α → Prog Op Resp ε β} : ∀ (xs : List α) (w : W),
      (∀ x ∈ xs, ∀ w', S w w' → M.resolves t (f x) (fun _ w'' => S w' w'') w') →
      M.resolves t (Prog.gather f xs) (fun _ w' => S w w') w := by
  intro xs
  induction xs with
  | nil => exact fun w _ => resolves_ret (hrefl w)
  | cons x xs ih =>
    intro w hf
    refine can_seq (hf x List.mem_cons_self w (hrefl w)) fun b w₁ hS => ?_
    refine can_seq (ih w₁ fun y hy w' hS' => hf y (List.mem_cons_of_mem x hy) w' (htrans hS hS')) ?_
    exact fun bs w₂ hS' => ⟨_, rfl, htrans hS hS'⟩

end Resolves

/-- A program whose requests are answered by `answer` can end as that evaluates it; `S` is what
    answering does to the world. -/
theorem can_eval {G : Op → Prop} {S : W → W → Prop} (answer : (op : Op) → Resp op)
    (hrefl : ∀ w, S w w) (htrans : ∀ {a b c}, S a b → S b c → S a c) {w₀ : W}
    (hanswer : ∀ w, S w₀ w → ∀ op, G op → ∃ pick w', M.exec t op pick w = some (answer op, w') ∧ S w w')
    {p : Prog Op Resp ε α} (hp : p.Asks G (fun _ => True)) :
    M.can t p (fun r w' => r = p.eval answer ∧ S w₀ w') w₀ := by
  suffices ∀ w, S w₀ w → M.can t p (fun r w' => r = p.eval answer ∧ S w₀ w') w from
    this w₀ (hrefl w₀)
  induction p with
  | ret a => exact fun w hS => ⟨rfl, hS⟩
  | throw e => exact fun w hS => ⟨rfl, hS⟩
  | call op k ih =>
    intro w hS
    obtain ⟨pick, w', hex, hS'⟩ := hanswer w hS op hp.1
    exact can_call hex (ih (answer op) (hp.2 _) w' (htrans hS hS'))

/-! ### Runs of one thread -/

/-- An action that schedules thread `t`, or nobody. -/
def Solo (t : Nat) : Act M → Prop
  | .spawn _ => False
  | .step u _ => u = t
  | .env _ => True

/-- A drift is a run. -/
theorem Drifts.run (h : M.Drifts w w') (ths : List (Thread W Op Resp ε Call Res)) :
    ∃ as, (∀ a ∈ as, Solo (M := M) t a) ∧ M.run ⟨w, ths⟩ as = some ⟨w', ths⟩ := by
  induction h with
  | refl w => exact ⟨[], fun a ha => absurd ha List.not_mem_nil, rfl⟩
  | step henv _ ih =>
    rename_i e w w' w'' _
    obtain ⟨as, hsolo, hrun⟩ := ih
    refine ⟨.env e :: as, ?_, ?_⟩
    · intro a ha
      rcases List.mem_cons.mp ha with rfl | ha
      · trivial
      · exact hsolo a ha
    · simp only [Machine.run, Machine.next, henv, Option.map_some, Option.bind_some, hrun]

theorem set_self {A : Type} {xs : List A} {i : Nat} {x : A} (h : xs[i]? = some x) :
    xs.set i x = xs := by
  obtain ⟨hlt, rfl⟩ := List.getElem?_eq_some_iff.mp h
  exact List.set_getElem_self hlt

/-- **What a thread can do, some run does**: the others stay where they are. -/
theorem can_run {call : Call} {w₀ : W} {p : Prog Op Resp ε (Res call)}
    {Q : Except ε (Res call) → W → Prop} {ths : List (Thread W Op Resp ε Call Res)}
    (h : M.can t p Q w) (hth : ths[t]? = some ⟨call, w₀, settle w p⟩) :
    ∃ as w' r, (∀ a ∈ as, Solo (M := M) t a) ∧
      M.run ⟨w, ths⟩ as = some ⟨w', ths.set t ⟨call, w₀, .done r w'⟩⟩ ∧ Q r w' := by
  induction p generalizing w ths with
  | ret a =>
    refine ⟨[], w, .ok a, fun a ha => absurd ha List.not_mem_nil, ?_, h⟩
    have hdone : ths[t]? = some ⟨call, w₀, .done (.ok a) w⟩ := hth
    rw [set_self hdone]
    rfl
  | throw e =>
    refine ⟨[], w, .error e, fun a ha => absurd ha List.not_mem_nil, ?_, h⟩
    have hdone : ths[t]? = some ⟨call, w₀, .done (.error e) w⟩ := hth
    rw [set_self hdone]
    rfl
  | call op k ih =>
    obtain ⟨w₁, hdrift, pick, r, w₂, hex, hrest⟩ := h
    obtain ⟨bs, hbs, hrun⟩ := hdrift.run (t := t) ths
    have hset : (ths.set t ⟨call, w₀, settle w₂ (k r)⟩)[t]? = some ⟨call, w₀, settle w₂ (k r)⟩ :=
      List.getElem?_set_self (List.getElem?_eq_some_iff.mp hth).1
    obtain ⟨cs, w', x, hcs, hrun', hQ⟩ := ih r hrest hset
    refine ⟨bs ++ .step t pick :: cs, w', x, ?_, ?_, hQ⟩
    · intro a ha
      rcases List.mem_append.mp ha with hb | hc
      · exact hbs a hb
      · rcases List.mem_cons.mp hc with rfl | hc
        · rfl
        · exact hcs a hc
    · refine (Machine.run_append _).mpr ⟨_, hrun, ?_⟩
      have hstep : M.next ⟨w₁, ths⟩ (.step t pick) =
          some ⟨w₂, ths.set t ⟨call, w₀, settle w₂ (k r)⟩⟩ := by
        have hth' : ths[t]? = some ⟨call, w₀, .waiting op k⟩ := hth
        simp only [Machine.next, hth', hex]
      rw [Machine.run, hstep, Option.bind_some, hrun', List.set_set]

/-- A call is spawned, scheduled alone, and done; the rest of the pool is as it was. -/
def CompletesAlone (M : Machine W Op Resp ε Call Res) (σ : Pool W Op Resp ε Call Res) (call : Call)
    (Q : Except ε (Res call) → W → Prop) : Prop :=
  ∃ as w' r, (∀ a ∈ as, Solo (M := M) σ.threads.length a) ∧
    M.run σ (.spawn call :: as) = some ⟨w', σ.threads ++ [⟨call, σ.world, .done r w'⟩]⟩ ∧ Q r w'

theorem completesAlone {σ : Pool W Op Resp ε Call Res} {call : Call}
    {Q : Except ε (Res call) → W → Prop}
    (hacc : M.accepts call σ.world = true)
    (h : M.can σ.threads.length (M.body σ.threads.length call) Q σ.world) :
    M.CompletesAlone σ call Q := by
  let th : Thread W Op Resp ε Call Res := ⟨call, σ.world, settle σ.world (M.body σ.threads.length call)⟩
  have hth : (σ.threads ++ [th])[σ.threads.length]? = some th := List.getElem?_concat_length
  obtain ⟨as, w', r, hsolo, hrun, hQ⟩ := can_run h hth
  refine ⟨as, w', r, hsolo, ?_, hQ⟩
  have hspawn : M.next σ (.spawn call) = some { σ with threads := σ.threads ++ [th] } := if_pos hacc
  rw [run, hspawn, Option.bind_some]
  rw [List.set_append_right _ _ (Nat.le_refl _), Nat.sub_self] at hrun
  exact hrun

end Machine

end Solo

end Async
