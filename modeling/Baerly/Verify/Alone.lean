import Baerly.System

/-
  One call, alone on the bucket, with a storage that may fail every request.

  A read answers what is stored, or fails.  A write is applied and acknowledged, or rejected with any
  error.  A rejected conditional write was not applied: a lost race is such a rejection.  Of a
  rejected write without a precondition nothing is known.  Nobody else moves.

  The rules of `Baerly.Lib.Interleave` serve here with the smallest rely there is: the world between
  two requests is the same one (`still`).
-/

namespace Baerly

open Async

/-! ## The semantics -/

/-- What a read of `found` can be answered with. -/
def answerRead {α : Type} (found : α) : Pick → Option (Except Err α)
  | .ok => some (.ok found)
  | .fail e => some (.error e)
  | _ => none

/-- A write without a precondition. -/
def Req.isUnconditional : Req → Bool
  | .putSnapshot _ _ => true
  | .deleteMarker _ => true
  | .deleteLog _ => true
  | .deleteSnapshot _ => true
  | _ => false

/-- The message took effect, and its sender will hear so. -/
def Msg.mustAck (m : Msg) : Bool := m.applied && !m.req.isUnconditional

/-- The world with a message that was decided on the spot. -/
def World.sent (w : World) (r : Req) (applied : Bool) : World :=
  { w with net := w.net ++ [⟨0, r, applied, !applied, !applied⟩] }

/-- Answer one request of the only thread there is. -/
def execAlone : (op : Op) → Pick → World → Option (Resp op × World)
  | .getCurrent, pick, w => (answerRead w.cur pick).map fun r => (r, w)
  | .getLog _ n, pick, w => (answerRead (w.log n) pick).map fun r => (r, w)
  | .getSnapshot key, pick, w => (answerRead (w.snap key) pick).map fun r => (r, w)
  | .getPending, pick, w => (answerRead w.pending pick).map fun r => (r, w)
  | .listSnapshots maxKeys, .keys ks, w => if ks.length ≤ maxKeys then some (.ok ks, w) else none
  | .listSnapshots _, .fail e, w => some (.error e, w)
  | .send r, .ok, w => (applyReq w r).map fun w' => (w.net.length, w'.sent r true)
  | .send r, .fail _, w => some (w.net.length, w.sent r false)
  | .await id, .acked date, w =>
    if (w.net[id]?).any Msg.applied then some (.ok date, w) else none
  | .await id, .fail e, w => if (w.net[id]?).any Msg.mustAck then none else some (.error e, w)
  | .now, .clock ms, w => some (ms, w)
  | .mintGeneration, .nonce g, w => if generationOk g then some (g, w) else none
  | .schedule n, .order is, w => if is.Perm (List.range n) then some (is, w) else none
  | .aborted, .flag b, w => some (b, w)
  | _, _, _ => none

/-- The outcomes of a program that runs alone: with what it can end, and in which world. -/
def Ends {α : Type} : Task α → World → Except Err α → World → Prop
  | .ret a, w, r, w' => r = .ok a ∧ w' = w
  | .throw e, w, r, w' => r = .error e ∧ w' = w
  | .call op k, w, r, w' => ∃ pick x w₁, execAlone op pick w = some (x, w₁) ∧ Ends (k x) w₁ r w'

/-- The run that makes the given picks. -/
def runAlone {α : Type} : Task α → List Pick → World → Option (Except Err α × World)
  | .ret a, [], w => some (.ok a, w)
  | .throw e, [], w => some (.error e, w)
  | .call op k, pick :: picks, w =>
    (execAlone op pick w).bind fun (x, w₁) => runAlone (k x) picks w₁
  | _, _, _ => none

theorem Ends.of_run {α : Type} {p : Task α} {picks : List Pick} {w w' : World} {r : Except Err α}
    (h : runAlone p picks w = some (r, w')) : Ends p w r w' := by
  induction p generalizing picks w with
  | ret a =>
    cases picks with
    | nil =>
      cases h
      exact ⟨rfl, rfl⟩
    | cons _ _ => cases h
  | throw e =>
    cases picks with
    | nil =>
      cases h
      exact ⟨rfl, rfl⟩
    | cons _ _ => cases h
  | call op k ih =>
    cases picks with
    | nil => cases h
    | cons pick picks =>
      obtain ⟨⟨x, w₁⟩, hexec, hrest⟩ := Option.bind_eq_some_iff.mp h
      exact ⟨pick, x, w₁, hexec, ih x hrest⟩

/-! ## The rules -/

/-- The calls of a collection, one at a time. -/
def alone (codec : Codec) (c : Collection) : Machine World Op Resp Err Call Res where
  Pick := Pick
  exec := fun _ => execAlone
  Env := Empty
  env := fun e _ => nomatch e
  body := body codec c
  accepts := fun _ _ => true

/-- Nothing happens between two requests of the one thread. -/
def still (codec : Codec) (c : Collection) : Protocol (alone codec c) where
  inv := fun _ => True
  rely := fun t w w' => t = 0 → w' = w
  fresh := fun _ _ => True
  post := fun _ _ _ _ _ => True
  rely_refl := fun _ _ _ => rfl
  rely_trans := fun h h' ht => (h' ht).trans (h ht)
  fresh_rely := fun _ _ => trivial
  env_ok := fun {e} => nomatch e

section Rules

variable {codec : Codec} {c : Collection} {w : World} {α β : Type}

/-- A request: what follows from every answer to it. -/
theorem wp_request {op : Op} {k : Resp op → Task α} {Q : Except Err α → World → Prop}
    (h : ∀ pick x w', execAlone op pick w = some (x, w') → (still codec c).wp 0 (k x) Q w') :
    (still codec c).wp 0 (.call op k) Q w := by
  intro w₁ hrel _ pick x w₂ hexec
  rw [hrel rfl] at hexec
  exact ⟨⟨trivial, fun u hu hzero => absurd hzero hu⟩, h pick x w₂ hexec⟩

/-- **What is proved of a program holds of its outcomes.** -/
theorem Ends.of_wp {p : Task α} {Q : Except Err α → World → Prop} {r : Except Err α} {w' : World}
    (h : Ends p w r w') (hwp : (still codec c).wp 0 p Q w) : Q r w' := by
  induction p generalizing w with
  | ret a =>
    obtain ⟨rfl, rfl⟩ := h
    exact hwp
  | throw e =>
    obtain ⟨rfl, rfl⟩ := h
    exact hwp
  | call op k ih =>
    obtain ⟨pick, x, w₁, hexec, hrest⟩ := h
    exact ih x hrest (hwp w (fun _ => rfl) trivial pick x w₁ hexec).2

theorem answerRead_some {found : α} {pick : Pick} {x : Except Err α}
    (h : answerRead found pick = some x) : x = .ok found ∨ ∃ e, x = .error e := by
  cases pick with
  | ok =>
    cases h
    exact Or.inl rfl
  | fail e =>
    cases h
    exact Or.inr ⟨e, rfl⟩
  | _ => cases h

/-- A read changes nothing, and answers what is stored if it answers. -/
theorem wp_read {op : Op} {found : α} {k : Resp op → Task α} {Q : Except Err α → World → Prop}
    (hexec : ∀ pick x w', execAlone op pick w = some (x, w') → w' = w ∧
      (k x = .ret found ∨ ∃ e, k x = .throw e))
    (hok : Q (.ok found) w) (herr : ∀ e, Q (.error e) w) :
    (still codec c).wp 0 (.call op k) Q w := by
  apply wp_request
  intro pick x w' hx
  obtain ⟨rfl, heq | ⟨e, heq⟩⟩ := hexec pick x w' hx
  · rw [heq]
    exact hok
  · rw [heq]
    exact herr e

theorem execAlone_read {found : α} {pick : Pick} {x : Except Err α} {w' : World}
    (h : (answerRead found pick).map (fun r => (r, w)) = some (x, w')) :
    w' = w ∧ (Task.ofExcept x = .ret found ∨ ∃ e, (Task.ofExcept x : Task α) = .throw e) := by
  obtain ⟨y, hy, heq⟩ := Option.map_eq_some_iff.mp h
  cases heq
  refine ⟨rfl, ?_⟩
  rcases answerRead_some hy with rfl | ⟨e, rfl⟩
  · exact Or.inl rfl
  · exact Or.inr ⟨e, rfl⟩

theorem wp_getLog_alone {why : Purpose} {n : Nat} {Q : Except Err (Option LogEntry) → World → Prop}
    (hok : Q (.ok (w.log n)) w) (herr : ∀ e, Q (.error e) w) :
    (still codec c).wp 0 (Task.getLog why n) Q w :=
  wp_read (fun _ _ _ h => execAlone_read h) hok herr

theorem wp_getCurrent_alone {Q : Except Err (Option CurrentJson) → World → Prop}
    (hok : Q (.ok w.cur) w) (herr : ∀ e, Q (.error e) w) :
    (still codec c).wp 0 Task.getCurrent Q w :=
  wp_read (fun _ _ _ h => execAlone_read h) hok herr

theorem wp_getSnapshot_alone {key : Key} {Q : Except Err (Option SnapshotBody) → World → Prop}
    (hok : Q (.ok (w.snap key)) w) (herr : ∀ e, Q (.error e) w) :
    (still codec c).wp 0 (Task.getSnapshot key) Q w :=
  wp_read (fun _ _ _ h => execAlone_read h) hok herr

/-- The rules of the log readers apply: a read answers the slot, and the world stays. -/
theorem readAlone (codec : Codec) (c : Collection) (why : Purpose) :
    ReadRule (still codec c) 0 why (fun w w' => w' = w) (fun _ => True)
      (fun n v w => w.log n = v) where
  refl _ := rfl
  trans h h' := h'.trans h
  keepC _ _ := trivial
  keepF h heq := heq ▸ h
  get n w _ := wp_getLog_alone ⟨rfl, fun v hv => Except.ok.inj hv⟩
    fun e => ⟨rfl, fun v hv => (by cases hv)⟩
  schedule n w _ := by
    apply wp_request
    intro pick x w' hx
    cases pick with
    | order is =>
      change (if is.Perm (List.range n) then some (is, w) else none) = some (x, w') at hx
      split at hx
      next hperm =>
        cases hx
        exact ⟨rfl, fun is' his => (by cases his; exact hperm)⟩
      next => cases hx
    | _ => cases hx

/-- What one request does to the world. -/
theorem execAlone_cases {op : Op} {pick : Pick} {x : Resp op} {w' : World}
    (h : execAlone op pick w = some (x, w')) : w' = w ∨ ∃ r, op = .send r ∧
      (w' = w.sent r false ∨ ∃ w₁, applyReq w r = some w₁ ∧ w' = w₁.sent r true) := by
  cases op with
  | send r =>
    refine Or.inr ⟨r, rfl, ?_⟩
    cases pick with
    | ok =>
      obtain ⟨w₁, hw₁, heq⟩ := Option.map_eq_some_iff.mp h
      cases heq
      exact Or.inr ⟨w₁, hw₁, rfl⟩
    | fail e =>
      cases h
      exact Or.inl rfl
    | _ => cases h
  | getCurrent | getLog | getSnapshot | getPending =>
    obtain ⟨_, _, heq⟩ := Option.map_eq_some_iff.mp h
    cases heq
    exact Or.inl rfl
  | _ =>
    left
    cases pick <;> simp only [execAlone, reduceCtorEq] at h <;> grind

/-- A program that asks only for what keeps `I` keeps it. -/
theorem wp_of_asks {G : Op → Prop} {I : World → Prop} {p : Task α} {Q : α → Prop}
    (hp : p.Asks G Q)
    (hI : ∀ r w, G (.send r) → I w → I (w.sent r false) ∧
      ∀ w₁, applyReq w r = some w₁ → I (w₁.sent r true)) (hw : I w) :
    (still codec c).wp 0 p (fun r w' => I w' ∧ ∀ a, r = .ok a → Q a) w := by
  induction p generalizing w with
  | ret a => exact ⟨hw, fun b hb => (by cases hb; exact hp)⟩
  | throw e => exact ⟨hw, fun b hb => (by cases hb)⟩
  | call op k ih =>
    apply wp_request
    intro pick x w' hexec
    refine ih x (hp.2 x) ?_
    rcases execAlone_cases hexec with rfl | ⟨r, rfl, rfl | ⟨w₁, happly, rfl⟩⟩
    · exact hw
    · exact (hI r w hp.1 hw).1
    · exact (hI r w hp.1 hw).2 w₁ happly

theorem applyReq_net {r : Req} {w' : World} (h : applyReq w r = some w') : w'.net = w.net := by
  unfold applyReq at h
  cases r with
  | putSnapshot key body => cases h; rfl
  | deleteMarker key => cases h; rfl
  | deleteLog n => cases h; rfl
  | deleteSnapshot key => cases h; rfl
  | createMarker key =>
    dsimp only at h
    split at h
    · cases h
    · cases h; rfl
  | _ =>
    dsimp only at h
    split at h
    · cases h; rfl
    · cases h

/-- **A write is applied and acknowledged, or rejected and not applied**; one without a precondition
    may be applied and rejected as well. -/
theorem wp_write_alone {r : Req} {Q : Except Err (Option JsString) → World → Prop}
    (hok : ∀ w₁ date, applyReq w r = some w₁ → Q (.ok date) (w₁.sent r true))
    (herr : ∀ e, Q (.error e) (w.sent r false))
    (hlate : r.isUnconditional = true → ∀ w₁ e, applyReq w r = some w₁ →
      Q (.error e) (w₁.sent r true)) :
    (still codec c).wp 0 (Task.write r) Q w := by
  -- the outcome of a message that was decided when it was sent
  have hawait : ∀ (w₁ : World) (applied : Bool), w₁.net.length = w.net.length →
      (applied = true → ∀ date, Q (.ok date) (w₁.sent r true)) →
      ((applied && !r.isUnconditional) = false → ∀ e, Q (.error e) (w₁.sent r applied)) →
      (still codec c).wp 0 (.call (.await w.net.length) Task.ofExcept) Q (w₁.sent r applied) := by
    intro w₁ applied hlen hacked hfailed
    have hnet : (w₁.sent r applied).net[w.net.length]? = some ⟨0, r, applied, !applied, !applied⟩ := by
      rw [← hlen, World.sent, List.getElem?_concat_length]
    apply wp_request
    intro pick x w' hx
    cases pick with
    | acked date =>
      change (if ((w₁.sent r applied).net[w.net.length]?).any Msg.applied then
        some (.ok date, w₁.sent r applied) else none) = some (x, w') at hx
      rw [hnet, Option.any_some] at hx
      split at hx
      next happlied =>
        cases hx
        obtain rfl : applied = true := happlied
        exact hacked rfl date
      next => cases hx
    | fail e =>
      change (if ((w₁.sent r applied).net[w.net.length]?).any Msg.mustAck then none
        else some (.error e, w₁.sent r applied)) = some (x, w') at hx
      rw [hnet, Option.any_some] at hx
      split at hx
      next => cases hx
      next hfree =>
        cases hx
        exact hfailed (Bool.eq_false_of_not_eq_true hfree) e
    | _ => cases hx
  apply wp_request
  intro pick x w' hx
  cases pick with
  | ok =>
    obtain ⟨w₁, hw₁, heq⟩ := Option.map_eq_some_iff.mp hx
    cases heq
    refine hawait w₁ true (by rw [applyReq_net hw₁]) (fun _ date => hok w₁ date hw₁) fun hfree e => ?_
    exact hlate (by simpa using hfree) w₁ e hw₁
  | fail e =>
    cases hx
    exact hawait w false rfl (fun htrue => (by cases htrue)) fun _ => herr
  | _ => cases hx

/-- The manifest, if it passes the guard. -/
theorem wp_readCurrentJson_alone {Q : Except Err (Option CurrentJson) → World → Prop}
    (hok : Q (.ok w.cur) w) (herr : ∀ e, Q (.error e) w) :
    (still codec c).wp 0 (readCurrentJson c) Q w := by
  refine Protocol.wp_bind (wp_getCurrent_alone ?_ herr)
  dsimp only
  cases hcur : w.cur with
  | none =>
    show Q (.ok none) w
    rw [← hcur]
    exact hok
  | some body =>
    dsimp only
    cases hguard : assertCurrentJson c.currentJsonKey body.toJson with
    | error e => exact herr e
    | ok json =>
      show Q (.ok (some json)) w
      rw [assertCurrentJson_toJson_self hguard, ← hcur]
      exact hok

/-- A check between two requests. -/
theorem wp_check_alone {x : Except Err β} {f : β → Task α} {Q : Except Err α → World → Prop}
    (hok : ∀ b, x = .ok b → (still codec c).wp 0 (f b) Q w) (herr : ∀ e, Q (.error e) w) :
    (still codec c).wp 0 ((Task.ofExcept x).bind f) Q w := by
  cases x with
  | ok b => exact hok b rfl
  | error e => exact herr e

/-- A captured conditional write. -/
theorem wp_attempt_write_alone {r : Req} {f : Except Err (Option JsString) → Task β}
    {Q : Except Err β → World → Prop} (hr : r.isUnconditional = false)
    (hok : ∀ w₁ date, applyReq w r = some w₁ →
      (still codec c).wp 0 (f (.ok date)) Q (w₁.sent r true))
    (herr : ∀ e, (still codec c).wp 0 (f (.error e)) Q (w.sent r false)) :
    (still codec c).wp 0 ((Prog.attempt (Task.write r)).bind f) Q w := by
  refine Protocol.wp_bind (Protocol.wp_attempt (wp_write_alone ?_ ?_ fun hfree => ?_))
  · exact hok
  · exact herr
  · rw [hr] at hfree
    cases hfree

end Rules

end Baerly
