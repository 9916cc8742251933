import Baerly.Verify.Spec

/-
  One rule per request: what a thread of the deployed system learns from it, and that asking is
  harmless to everybody else.

  Callers cite these rules and never look at `exec`.
-/

namespace Baerly

open Async

/-! ## What `exec` does -/

section Exec

variable {t : Nat} {w w' : World} {pick : Pick}

-- the equations of `exec`, once for the whole section
attribute [local simp] exec

/-- A manifest read answers the manifest there is, on record, or fails. -/
theorem exec_getCurrent {r : Resp .getCurrent} (h : exec t .getCurrent pick w = some (r, w')) :
    (r = .ok w.cur ∧ w' = w.record (.readCurrent t w.cur w.tail)) ∨
      ∃ e, r = .error e ∧ w' = w := by
  cases pick <;> simp only [exec, Option.some.injEq, Prod.mk.injEq, reduceCtorEq] at h
  case ok => exact Or.inl ⟨h.1.symm, h.2.symm⟩
  case fail e => exact Or.inr ⟨e, h.1.symm, h.2.symm⟩

/-- A log read answers what the slot holds, on record with what is committed there, or fails. -/
theorem exec_getLog {why : Purpose} {n : Nat} {r : Resp (.getLog why n)}
    (h : exec t (.getLog why n) pick w = some (r, w')) :
    (r = .ok (w.log n) ∧ w' = w.record (.readLog t why n (w.log n) w.hist[n]?)) ∨
      ∃ e, r = .error e ∧ w' = w := by
  cases pick <;> simp only [exec, Option.some.injEq, Prod.mk.injEq, reduceCtorEq] at h
  case ok => exact Or.inl ⟨h.1.symm, h.2.symm⟩
  case fail e => exact Or.inr ⟨e, h.1.symm, h.2.symm⟩

/-- A snapshot read changes nothing. -/
theorem exec_getSnapshot {key : Key} {r : Resp (.getSnapshot key)}
    (h : exec t (.getSnapshot key) pick w = some (r, w')) :
    w' = w ∧ (r = .ok (w.snap key) ∨ ∃ e, r = .error e) := by
  cases pick <;> simp only [exec, Option.some.injEq, Prod.mk.injEq, reduceCtorEq] at h
  case ok => exact ⟨h.2.symm, Or.inl h.1.symm⟩
  case fail e => exact ⟨h.2.symm, Or.inr ⟨e, h.1.symm⟩⟩

/-- A ledger read changes nothing. -/
theorem exec_getPending {r : Resp .getPending} (h : exec t .getPending pick w = some (r, w')) :
    w' = w ∧ (r = .ok w.pending ∨ ∃ e, r = .error e) := by
  cases pick <;> simp only [exec, Option.some.injEq, Prod.mk.injEq, reduceCtorEq] at h
  case ok => exact ⟨h.2.symm, Or.inl h.1.symm⟩
  case fail e => exact ⟨h.2.symm, Or.inr ⟨e, h.1.symm⟩⟩

/-- Nor does a listing. -/
theorem exec_listSnapshots {maxKeys : Nat} {r : Resp (.listSnapshots maxKeys)}
    (h : exec t (.listSnapshots maxKeys) pick w = some (r, w')) : w' = w := by
  cases pick <;> simp only [exec, Option.some.injEq, Prod.mk.injEq, reduceCtorEq] at h
  case keys ks =>
    split at h
    · cases h; rfl
    · cases h
  case fail e => exact h.2.symm

/-- Nor does a look at the clock. -/
theorem exec_now {r : Resp .now} (h : exec t .now pick w = some (r, w')) : w' = w := by
  cases pick <;> simp at h
  case clock ms => exact h.2.symm

theorem exec_aborted {r : Resp .aborted} (h : exec t .aborted pick w = some (r, w')) :
    w' = w := by
  cases pick <;> simp at h
  case flag b => exact h.2.symm

/-- A generation is minted out of nothing but randomness, in the form the source gives it. -/
theorem exec_mintGeneration {r : Resp .mintGeneration}
    (h : exec t .mintGeneration pick w = some (r, w')) : w' = w ∧ generationOk r = true := by
  cases pick <;> simp only [exec, reduceCtorEq] at h
  case nonce g =>
    split at h
    next hg => cases h; exact ⟨rfl, hg⟩
    next => cases h

/-- The order of a batch is any order of all of it. -/
theorem exec_schedule {n : Nat} {r : Resp (.schedule n)}
    (h : exec t (.schedule n) pick w = some (r, w')) : w' = w ∧ List.Perm r (List.range n) := by
  cases pick <;> simp only [exec, reduceCtorEq] at h
  case order is =>
    split at h
    next hp => cases h; exact ⟨rfl, hp⟩
    next => cases h

/-- Sending puts one fresh message on the net, not yet delivered, if its key is free. -/
theorem exec_send {r : Req} {id : Resp (.send r)} (h : exec t (.send r) pick w = some (id, w')) :
    noCollision w r = true ∧ id = w.net.length ∧
      w' = { w with net := w.net ++ [⟨t, r, false, false, false⟩] } := by
  cases pick <;> simp only [exec, reduceCtorEq] at h
  case ok =>
    split at h
    next hc => cases h; exact ⟨hc, rfl, rfl⟩
    next => cases h

/-- The outcomes of a request that was sent. -/
theorem exec_await {id : Nat} {r : Resp (.await id)} (h : exec t (.await id) pick w = some (r, w')) :
    ∃ m, w.net[id]? = some m ∧ m.owner = t ∧
      ((w' = w ∧ m.applied = true ∧ ∃ date, r = .ok date) ∨
       (w' = w ∧ m.refused = true ∧ ∃ msg, r = .error (.mk .writeConflict msg)) ∨
       (∃ e, r = .error e ∧ e.isWriteConflict = false ∧ e.isNotApplied = true ∧
          m.applied = false ∧ w' = w.setMsg id { m with void := true }) ∨
       (w' = w ∧ ∃ e, r = .error e ∧ e.isWriteConflict = false ∧ e.isNotApplied = false)) := by
  simp only [exec] at h
  split at h
  next m hm =>
    split at h
    next => cases h
    next hown =>
      refine ⟨m, hm, by simpa using hown, ?_⟩
      split at h
      next date =>
        split at h
        next happ => cases h; exact Or.inl ⟨rfl, happ, date, rfl⟩
        next => cases h
      next message =>
        split at h
        next href => cases h; exact Or.inr (Or.inl ⟨rfl, href, message, rfl⟩)
        next => cases h
      next e =>
        split at h
        next => cases h
        next hwc =>
          have hwc' : e.isWriteConflict = false := by simpa using hwc
          split at h
          next hna =>
            split at h
            next => cases h
            next happ =>
              cases h
              have happ' : m.applied = false := by simpa using happ
              exact Or.inr (Or.inr (Or.inl ⟨e, rfl, hwc', hna, happ', rfl⟩))
          next hna =>
            cases h
            have hna' : e.isNotApplied = false := by simpa using hna
            exact Or.inr (Or.inr (Or.inr ⟨rfl, e, rfl, hwc', hna'⟩))
      next => cases h
  next => cases h

end Exec

/-! ## Steps of a thread -/

section Steps

variable {codec : Codec} {c : Collection} {t : Nat} {w : World}

/-- Recording what was read is no change of the bucket. -/
theorem Evolves.record (w : World) (ev : Event) : Evolves w (w.record ev) where
  hist := List.prefix_refl _
  trace := List.prefix_append _ _
  start := Nat.le_refl _
  floor := Nat.le_refl _
  manifest := fun m h => ⟨m, h, rfl⟩
  net := fun _ m h => ⟨m, h, .refl m⟩

/-- The record of a reader grows by its own events. -/
theorem eventsOf_record (w : World) (ev : Event) (u : Nat) :
    (w.record ev).eventsOf u = w.eventsOf u ++ if ev.reader = u then [ev] else [] := by
  simp only [World.eventsOf, World.record, List.filter_append, List.filter_cons, List.filter_nil,
    decide_eq_true_eq]

/-- The invariant does not speak of the record. -/
theorem Inv.record (h : Inv codec c w) (ev : Event) : Inv codec c (w.record ev) := by
  have hev := Evolves.record w ev
  exact ⟨fun m hm => hev.manifestOk (h.manifest m hm), h.unborn, h.dense, h.stored, h.committed,
    fun m hm => hev.msgOk (h.msgs m hm), hev.serial rfl h.serial, h.snaps, h.content, h.kept,
    h.ledger⟩

/-- Doing nothing is a step. -/
theorem step_id (h : Inv codec c w) : (protocol codec c).StepOk t w w :=
  ⟨h, fun u _ => Rely.refl u w⟩

/-- Reading is harmless. -/
theorem step_record (h : Inv codec c w) {ev : Event} (hr : ev.reader = t) :
    (protocol codec c).StepOk t w (w.record ev) := by
  refine ⟨h.record ev, fun u hu => ⟨.record w ev, ?_, ?_⟩⟩
  · intro i m hi _
    exact (List.getElem?_eq_some_iff.mp hi).1
  · rw [eventsOf_record, if_neg (by rw [hr]; exact fun e => hu e.symm), List.append_nil]

/-- The world after thread `t` sent `r`. -/
def World.sendMsg (w : World) (t : Nat) (r : Req) : World :=
  { w with net := w.net ++ [⟨t, r, false, false, false⟩] }

theorem Evolves.sendMsg (w : World) (t : Nat) (r : Req) : Evolves w (w.sendMsg t r) where
  hist := List.prefix_refl _
  trace := List.prefix_refl _
  start := Nat.le_refl _
  floor := Nat.le_refl _
  manifest := fun m h => ⟨m, h, rfl⟩
  net := by
    intro i m hi
    have hlt := (List.getElem?_eq_some_iff.mp hi).1
    refine ⟨m, ?_, .refl m⟩
    show (w.net ++ _)[i]? = some m
    rw [List.getElem?_append_left hlt]
    exact hi

/-- After a send, a message is an old one or the new one. -/
theorem net_sendMsg {i : Nat} {r : Req} {m : Msg} (h : (w.sendMsg t r).net[i]? = some m) :
    w.net[i]? = some m ∨ (i = w.net.length ∧ m = ⟨t, r, false, false, false⟩) := by
  have h' : (w.net ++ [(⟨t, r, false, false, false⟩ : Msg)])[i]? = some m := h
  rw [List.getElem?_append] at h'
  split at h'
  · exact Or.inl h'
  next hge =>
    have hidx : i - w.net.length = 0 := by
      have hlt := (List.getElem?_eq_some_iff.mp h').1
      simp only [List.length_singleton] at hlt
      omega
    rw [hidx] at h'
    simp only [List.getElem?_cons_zero, Option.some.injEq] at h'
    exact Or.inr ⟨by omega, h'.symm⟩

theorem mem_sendMsg {r : Req} {m : Msg} (h : m ∈ (w.sendMsg t r).net) :
    m ∈ w.net ∨ m = ⟨t, r, false, false, false⟩ := by
  have h' : m ∈ w.net ++ [(⟨t, r, false, false, false⟩ : Msg)] := h
  simpa using h'

/-- Sending a request that is in order keeps the invariant. -/
theorem Inv.sendMsg (h : Inv codec c w) {r : Req} (hr : ReqOk codec c w t r)
    (hcol : noCollision w r = true)
    (hser : r.isCreateLog = true → Genuine t w → AllDead t w) :
    Inv codec c (w.sendMsg t r) := by
  have hev := Evolves.sendMsg w t r
  refine ⟨fun m hm => hev.manifestOk (h.manifest m hm), h.unborn, h.dense, h.stored, ?_, ?_, ?_,
    fun key body hs => hev.sent (h.snaps key body hs), ?_, ?_, h.ledger⟩
  · intro n e hn
    obtain ⟨m, hm, guarded, hreq, happ, hown⟩ := h.committed n e hn
    exact ⟨m, List.mem_append_left _ hm, guarded, hreq, happ, hown⟩
  · intro m hm
    rcases mem_sendMsg hm with hold | rfl
    · exact hev.msgOk (h.msgs m hold)
    · exact ⟨hev.reqOk hr, nofun, nofun⟩
  · intro i j m m' hij hm hm' hown hc hc' hgen
    have hold : w.net[i]? = some m := by
      rcases net_sendMsg hm with hm | ⟨rfl, _⟩
      · exact hm
      · have hlt := (List.getElem?_eq_some_iff.mp hm').1
        simp only [World.sendMsg, List.length_append, List.length_singleton] at hlt
        omega
    rcases net_sendMsg hm' with hm' | ⟨_, rfl⟩
    · exact h.serial i j m m' hij hold hm' hown hc hc' hgen
    · -- the new create: every earlier one of this thread is dead
      have hown' : m.owner = t := hown.symm
      rw [hown'] at hgen
      exact hser hc' hgen m (List.mem_of_getElem? hold) hown' hc
  · intro key body body' hs hs'
    -- two bodies under one key: both sent before, or the new one, which has met no other
    have hback : ∀ b, (w.sendMsg t r).Sent (.putSnapshot key b) →
        w.Sent (.putSnapshot key b) ∨ r = .putSnapshot key b := by
      rintro b ⟨m, hm, hreq⟩
      rcases mem_sendMsg hm with hold | rfl
      · exact Or.inl ⟨m, hold, hreq⟩
      · exact Or.inr hreq
    have hnew : ∀ b b', r = .putSnapshot key b → w.Sent (.putSnapshot key b') → b' = b := by
      rintro b b' rfl ⟨m, hm, hreq⟩
      simp only [noCollision, List.all_eq_true] at hcol
      have hm' := hcol m hm
      rw [hreq] at hm'
      simpa using hm'
    rcases hback body hs with h1 | h1 <;> rcases hback body' hs' with h2 | h2
    · exact h.content key body body' h1 h2
    · exact hnew body' body h2 h1
    · exact (hnew body body' h1 h2).symm
    · rw [h1] at h2
      cases h2
      rfl
  · rintro key body ⟨m, hm, hreq, happ⟩
    rcases mem_sendMsg hm with hold | rfl
    · exact h.kept key body ⟨m, hold, hreq, happ⟩
    · cases happ

/-- A message the protocol allows, whose key is free, may be sent: a create only, where the readbacks
    are genuine, once the creates of its thread before it are dead. -/
theorem step_send (h : Inv codec c w) {r : Req} (hr : ReqOk codec c w t r)
    (hcol : noCollision w r = true)
    (hser : r.isCreateLog = true → Genuine t w → AllDead t w) :
    (protocol codec c).StepOk t w (w.sendMsg t r) := by
  refine ⟨h.sendMsg hr hcol hser, fun u hu => ⟨.sendMsg w t r, ?_, rfl⟩⟩
  intro i m hi hown
  rcases net_sendMsg hi with hold | ⟨_, rfl⟩
  · exact (List.getElem?_eq_some_iff.mp hold).1
  · exact absurd hown fun e => hu e.symm

/-- A message may be called void at any time. -/
theorem Msg.Evolves.voided (m : Msg) : m.Evolves { m with void := true } :=
  ⟨rfl, rfl, id, id, fun _ => ⟨rfl, rfl⟩⟩

/-- A definitive rejection is harmless. -/
theorem step_void (h : Inv codec c w) {i : Nat} {m : Msg} (hi : w.net[i]? = some m) :
    (protocol codec c).StepOk t w (w.setMsg i { m with void := true }) := by
  have he := Msg.Evolves.voided m
  refine ⟨h.setMsg hi he rfl Or.inl, fun u _ => ⟨.setMsg hi he, ?_, rfl⟩⟩
  intro j n hj _
  have hlt := (List.getElem?_eq_some_iff.mp hj).1
  simpa [World.setMsg] using hlt

end Steps

/-! ## Request rules -/

section Requests

variable {codec : Codec} {c : Collection} {t : Nat} {w : World}

/-- A request that leaves the world alone: nothing to guarantee. -/
theorem wp_silent {op : Op} {α : Type} {k : Resp op → Task α} {Q : Except Err α → World → Prop}
    (h : ∀ w', Quiet t w w' → Inv codec c w' → ∀ pick r w'',
      exec t op pick w' = some (r, w'') → w'' = w' ∧ (protocol codec c).wp t (k r) Q w') :
    (protocol codec c).wp t (.call op k) Q w := by
  intro w' hrel hinv pick r w'' hex
  obtain ⟨rfl, hwp⟩ := h w' hrel.quiet hinv pick r w'' hex
  exact ⟨step_id hinv, hwp⟩

/-- Log reads are no manifest reads. -/
theorem manifestReads_readLog (w : World) (u : Nat) (why : Purpose) (n : Nat)
    (v k : Option LogEntry) :
    (w.record (.readLog u why n v k)).manifestReads t = w.manifestReads t := by
  unfold World.manifestReads
  rw [eventsOf_record]
  split
  · simp
  · simp

/-- **Reading a slot.** -/
theorem wp_getLog {why : Purpose} {n since : Nat} (hs : since ≤ w.tail) :
    (protocol codec c).wp t (Task.getLog why n) (fun r w' => Quiet t w w' ∧
      ∀ v, r = .ok v → ReadFact t why since n v w') w := by
  intro w' hrel hinv pick r w'' hex
  have hq := hrel.quiet
  rcases exec_getLog hex with ⟨rfl, rfl⟩ | ⟨e, rfl, rfl⟩
  · refine ⟨step_record hinv rfl, ⟨⟨hq.toCalm.trans ⟨.record _ _, ?_⟩, ?_⟩, ?_⟩⟩
    · intro i m hlen hi _
      have hlt : i < w'.net.length := (List.getElem?_eq_some_iff.mp hi).1
      omega
    · rw [manifestReads_readLog, hq.reads]
    · intro v hv
      cases hv
      refine ⟨⟨w'.hist[n]?, ?_, fun e he => he, ?_, ?_⟩, ?_⟩
      · exact List.mem_append_right _ (List.mem_singleton.mpr rfl)
      · intro hnone
        have hlen : w'.tail ≤ n := List.getElem?_eq_none_iff.mp hnone
        have htail := hq.evolves.tail
        omega
      · rcases Nat.lt_or_ge n w'.floor with hf | hf
        · exact Or.inr hf
        · exact Or.inl (hinv.dense n hf)
      · intro e he
        exact ⟨hinv.lt_tail he, hinv.stored n e he⟩
  · exact ⟨step_id hinv, hq, fun v hv => by cases hv⟩

/-- What a manifest read tells. -/
structure ManifestRead (codec : Codec) (c : Collection) (t : Nat) (w : World)
    (v : Option CurrentJson) (w' : World) : Prop where
  calm : Calm t w w'
  found : ∀ m, v = some m → ManifestOk codec c w' m
  /-- The manifest is at least as new as the world the read started in. -/
  floor_le : ∀ m, v = some m → w.floor ≤ certifiedDeleteFloor m
  born : w.cur ≠ none → v ≠ none
  reads : ∃ tail, w'.manifestReads t = w.manifestReads t ++ [(v, tail)] ∧ w.tail ≤ tail ∧
    tail ≤ w'.tail ∧ Event.readCurrent t v tail ∈ w'.trace ∧ (v = none → tail = 0)

/-- **Reading the manifest.** -/
theorem wp_getCurrent :
    (protocol codec c).wp t Task.getCurrent (fun r w' => Calm t w w' ∧
      ∀ v, r = .ok v → ManifestRead codec c t w v w') w := by
  intro w' hrel hinv pick r w'' hex
  have hq := hrel.quiet
  rcases exec_getCurrent hex with ⟨rfl, rfl⟩ | ⟨e, rfl, rfl⟩
  · have hcalm : Calm t w (w'.record (.readCurrent t w'.cur w'.tail)) := by
      refine hq.toCalm.trans ⟨.record _ _, ?_⟩
      intro i m hlen hi _
      have hlt : i < w'.net.length := (List.getElem?_eq_some_iff.mp hi).1
      omega
    refine ⟨step_record hinv rfl, hcalm, ?_⟩
    intro v hv
    cases hv
    refine ⟨hcalm, ?_, ?_, hq.evolves.born, w'.tail, ?_, hq.evolves.tail, Nat.le_refl _, ?_, ?_⟩
    · intro m hm
      exact (Evolves.record _ _).manifestOk (hinv.manifest m hm)
    · intro m hm
      have hfloor := hq.evolves.floor
      have heq : w'.floor = certifiedDeleteFloor m := by simp only [World.floor, hm]
      omega
    · rw [← hq.reads]
      unfold World.manifestReads
      rw [eventsOf_record]
      simp [Event.reader]
    · exact List.mem_append_right _ (List.mem_singleton.mpr rfl)
    · intro hnone
      show w'.hist.length = 0
      rw [hinv.unborn hnone]
      rfl
  · exact ⟨step_id hinv, hq.toCalm, fun v hv => by cases hv⟩

/-- A snapshot that is read was sent by somebody. -/
theorem wp_getSnapshot {key : Key} :
    (protocol codec c).wp t (Task.getSnapshot key) (fun r w' => Quiet t w w' ∧
      ∀ b, r = .ok (some b) → w'.Sent (.putSnapshot key b) ∧ Inv codec c w') w := by
  refine wp_silent fun w' hq hinv pick r w'' hex => ?_
  obtain ⟨rfl, rfl | ⟨e, rfl⟩⟩ := exec_getSnapshot hex
  · refine ⟨rfl, hq, fun b hb => ?_⟩
    cases hs : w''.snap key with
    | none => rw [hs] at hb; cases hb
    | some b' =>
      rw [hs] at hb
      cases hb
      exact ⟨hinv.snaps key b hs, hinv⟩
  · exact ⟨rfl, hq, fun b hb => by cases hb⟩

/-- A ledger that is read has no legacy record. -/
theorem wp_getPending :
    (protocol codec c).wp t Task.getPending (fun r w' => Quiet t w w' ∧
      ∀ p, r = .ok (some p) → p.NoLegacy) w := by
  refine wp_silent fun w' hq hinv pick r w'' hex => ?_
  obtain ⟨rfl, rfl | ⟨e, rfl⟩⟩ := exec_getPending hex
  · refine ⟨rfl, hq, fun p hp => ?_⟩
    cases hs : w''.pending with
    | none => rw [hs] at hp; cases hp
    | some p' =>
      rw [hs] at hp
      cases hp
      exact hinv.ledger p hs
  · exact ⟨rfl, hq, fun b hb => by cases hb⟩

theorem wp_listSnapshots {maxKeys : Nat} :
    (protocol codec c).wp t (Task.listSnapshots maxKeys) (fun _ w' => Quiet t w w') w := by
  refine wp_silent fun w' hq hinv pick r w'' hex => ⟨exec_listSnapshots hex, ?_⟩
  cases r with
  | ok ks => exact hq
  | error e => exact hq

theorem wp_now : (protocol codec c).wp t Task.now (fun _ w' => Quiet t w w') w :=
  wp_silent fun _ hq _ _ _ _ hex => ⟨exec_now hex, hq⟩

theorem wp_aborted : (protocol codec c).wp t Task.aborted (fun _ w' => Quiet t w w') w :=
  wp_silent fun _ hq _ _ _ _ hex => ⟨exec_aborted hex, hq⟩

/-- A minted generation has the right form. -/
theorem wp_mintGeneration :
    (protocol codec c).wp t Task.mintGeneration (fun r w' => Quiet t w w' ∧
      ∀ g, r = .ok g → generationOk g = true) w := by
  refine wp_silent fun w' hq hinv pick r w'' hex => ⟨(exec_mintGeneration hex).1, hq, ?_⟩
  intro g hg
  cases hg
  exact (exec_mintGeneration hex).2

/-- A batch is scheduled in some order of all of it. -/
theorem wp_schedule {n : Nat} :
    (protocol codec c).wp t (Prog.ask (.schedule n)) (fun r w' => Quiet t w w' ∧
      ∀ is : List Nat, r = .ok is → is.Perm (List.range n)) w := by
  refine wp_silent fun w' hq hinv pick r w'' hex => ⟨(exec_schedule hex).1, hq, ?_⟩
  intro is his
  cases his
  exact (exec_schedule hex).2

/-- The log-reading rules of `LogTail`, at this protocol. -/
theorem readRule (codec : Codec) (c : Collection) (t : Nat) (why : Purpose) (since : Nat) :
    ReadRule (protocol codec c) t why (Quiet t) (fun w => since ≤ w.tail)
      (ReadFact t why since) where
  refl := Quiet.refl t
  trans := Quiet.trans
  keepC := fun hC hq => Nat.le_trans hC hq.evolves.tail
  keepF := fun hF hq => hF.keep hq.evolves
  get := fun _ _ hC => wp_getLog hC
  schedule := fun _ _ _ => wp_schedule

/-- What was computed without the bucket takes no step. -/
theorem wp_ofExcept {α : Type} {x : Except Err α} {Q : Except Err α → World → Prop}
    (h : Q x w) : (protocol codec c).wp t (Task.ofExcept x) Q w := by
  cases x with
  | ok a => exact h
  | error e => exact h

/-- A check ends the program or hands its value on. -/
theorem wp_check {α β : Type} {x : Except Err α} {f : α → Task β}
    {Q : Except Err β → World → Prop}
    (hok : ∀ a, x = .ok a → (protocol codec c).wp t (f a) Q w)
    (herr : ∀ e, x = .error e → Q (.error e) w) :
    (protocol codec c).wp t ((Task.ofExcept x).bind f) Q w := by
  cases x with
  | ok a => exact hok a rfl
  | error e => exact herr e rfl

/-! ## Writes -/

/-- Sending anything but a create leaves the thread's commits as they were. -/
theorem Quiet.sendMsg {r : Req} (hr : r.isCreateLog = false) : Quiet t w (w.sendMsg t r) := by
  refine ⟨⟨.sendMsg w t r, ?_⟩, rfl⟩
  intro i m hlen hi _
  rcases net_sendMsg hi with hold | ⟨_, rfl⟩
  · have hlt := (List.getElem?_eq_some_iff.mp hold).1
    omega
  · exact hr

/-- So does a message that evolves. -/
theorem Quiet.setMsg {i : Nat} {m m' : Msg} (hi : w.net[i]? = some m) (he : m.Evolves m') :
    Quiet t w (w.setMsg i m') := by
  refine ⟨⟨.setMsg hi he, ?_⟩, rfl⟩
  intro j n hlen hj _
  have hlt := (List.getElem?_eq_some_iff.mp hj).1
  simp only [World.setMsg, List.length_set] at hlt
  omega

/-- What the outcome of a sent request tells. -/
structure Outcome (t : Nat) (r : Req) (o : Except Err (Option JsString)) (w : World) : Prop where
  acked : ∀ date, o = .ok date → w.Applied r ∧ LandedOk w r
  conflict : ∀ e, o = .error e → e.isWriteConflict = true → RefusedOk w r
  /-- A definitive rejection: some message of the thread for this request is void, unapplied. -/
  notApplied : ∀ e, o = .error e → e.isWriteConflict = false → e.isNotApplied = true →
    ∃ m ∈ w.net, m.owner = t ∧ m.req = r ∧ m.void = true ∧ m.applied = false

/-- Awaiting a request that was sent. -/
theorem wp_outcome {id : Nat} {r : Req}
    (hid : ∀ m : Msg, w.net[id]? = some m → m.req = r) (hlt : id < w.net.length) :
    (protocol codec c).wp t (Task.outcome id) (fun o w' => Quiet t w w' ∧ Outcome t r o w') w := by
  intro w' hrel hinv pick o w'' hex
  have hq := hrel.quiet
  obtain ⟨m, hm, hown, hcase⟩ := exec_await hex
  have hreq : m.req = r := by
    obtain ⟨m₀, hm₀, he⟩ := hq.evolves.net_back hlt hm
    exact he.req.trans (hid m₀ hm₀)
  have hmem := List.mem_of_getElem? hm
  have hok := hinv.msgs m hmem
  rcases hcase with ⟨rfl, happ, date, rfl⟩ | ⟨rfl, href, msg, rfl⟩ |
    ⟨e, rfl, hwc, hna, happ, rfl⟩ | ⟨rfl, e, rfl, hwc, hna⟩
  · refine ⟨step_id hinv, hq, ⟨fun d _ => ?_, ?_, ?_⟩⟩
    · have hl := hok.landed happ
      exact ⟨⟨m, hmem, hreq, happ⟩, hreq ▸ hl⟩
    · intro e he
      cases he
    · intro e he
      cases he
  · refine ⟨step_id hinv, hq, ⟨?_, ?_, ?_⟩⟩
    · intro d hd
      cases hd
    · intro e _ _
      exact hreq ▸ hok.refused href
    · intro e he hwc
      cases he
      simp at hwc
  · refine ⟨step_void hinv hm, hq.trans (.setMsg hm (.voided m)), ⟨?_, ?_, ?_⟩⟩
    · intro d hd
      cases hd
    · intro e' he' hwc'
      cases he'
      rw [hwc] at hwc'
      cases hwc'
    · intro e' he' _ _
      refine ⟨{ m with void := true }, ?_, hown, hreq, rfl, happ⟩
      exact List.mem_of_getElem? (List.getElem?_set_self (List.getElem?_eq_some_iff.mp hm).1)
  · refine ⟨step_id hinv, hq, ⟨?_, ?_, ?_⟩⟩
    · intro d hd
      cases hd
    · intro e' he' hwc'
      cases he'
      rw [hwc] at hwc'
      cases hwc'
    · intro e' he' _ hna'
      cases he'
      rw [hna] at hna'
      cases hna'

/-- **Writing** anything but a log object. -/
theorem wp_write {r : Req} (hr : ReqOk codec c w t r) (hnc : r.isCreateLog = false) :
    (protocol codec c).wp t (Task.write r) (fun o w' => Quiet t w w' ∧ Outcome t r o w') w := by
  intro w' hrel hinv pick id w'' hex
  obtain ⟨hcol, rfl, rfl⟩ := exec_send hex
  have hq := hrel.quiet
  refine ⟨step_send hinv (hq.evolves.reqOk hr) hcol (by rw [hnc]; nofun), ?_⟩
  have hout : (protocol codec c).wp t (Task.outcome w'.net.length) (fun o w₂ =>
      Quiet t (w'.sendMsg t r) w₂ ∧ Outcome t r o w₂) (w'.sendMsg t r) := by
    refine wp_outcome ?_ (by simp [World.sendMsg])
    intro m hm
    rcases net_sendMsg hm with hold | ⟨_, rfl⟩
    · have hlt := (List.getElem?_eq_some_iff.mp hold).1
      omega
    · rfl
  refine Protocol.wp_mono hout ?_
  rintro o w₂ ⟨hq₂, ho⟩
  exact ⟨(hq.trans (.sendMsg hnc)).trans hq₂, ho⟩

/-- Awaiting, without asking what for. -/
theorem wp_await (id : Nat) :
    (protocol codec c).wp t (Task.outcome id) (fun _ w' => Quiet t w w') w := by
  intro w' hrel hinv pick o w'' hex
  have hq := hrel.quiet
  obtain ⟨m, hm, hown, hcase⟩ := exec_await hex
  rcases hcase with ⟨rfl, _, date, rfl⟩ | ⟨rfl, _, msg, rfl⟩ | ⟨e, rfl, _, _, _, rfl⟩ |
    ⟨rfl, e, rfl, _, _⟩
  · exact ⟨step_id hinv, hq⟩
  · exact ⟨step_id hinv, hq⟩
  · exact ⟨step_void hinv hm, hq.trans (.setMsg hm (.voided m))⟩
  · exact ⟨step_id hinv, hq⟩

/-- A batch of such messages is sent one by one. -/
theorem wp_sendAll : ∀ (rs : List Req) (w : World),
    (∀ r ∈ rs, ReqOk codec c w t r ∧ r.isCreateLog = false) →
      (protocol codec c).wp t (Task.sendAll rs) (fun _ w' => Quiet t w w') w := by
  intro rs
  induction rs with
  | nil => intro w _; exact Quiet.refl t w
  | cons r rs ih =>
    intro w hr w' hrel hinv pick id w'' hex
    obtain ⟨hcol, rfl, rfl⟩ := exec_send hex
    have hq := hrel.quiet
    obtain ⟨hok, hnc⟩ := hr r (by simp)
    refine ⟨step_send hinv (hq.evolves.reqOk hok) hcol (by rw [hnc]; nofun), ?_⟩
    have hq' : Quiet t w (w'.sendMsg t r) := hq.trans (.sendMsg hnc)
    have hrest := ih (w'.sendMsg t r) fun r' hr' =>
      ⟨hq'.evolves.reqOk (hr r' (by simp [hr'])).1, (hr r' (by simp [hr'])).2⟩
    refine Protocol.wp_bind (Protocol.wp_mono hrest ?_)
    rintro (e | ids) w₂ hq₂
    · exact hq'.trans hq₂
    · exact hq'.trans hq₂

/-- **A batch of writes** whose outcomes are handled one by one. -/
theorem wp_writeAll {settle : Task (Option JsString) → Task Unit} {rs : List Req}
    (hsettle : ∀ id w, (protocol codec c).wp t (settle (Task.outcome id))
      (fun _ w' => Quiet t w w') w)
    (hr : ∀ r ∈ rs, ReqOk codec c w t r ∧ r.isCreateLog = false) :
    (protocol codec c).wp t (Task.writeAll settle rs) (fun _ w' => Quiet t w w') w := by
  refine Protocol.wp_bind (Protocol.wp_mono (wp_sendAll rs w hr) ?_)
  rintro (e | ids) w₁ hq₁
  · exact hq₁
  · have hall := wp_all (readRule codec c t .scan 0) (G := fun _ _ _ => True)
      (fun _ _ => trivial) ids (w := w₁) (Nat.zero_le _) fun id w _ =>
        Protocol.wp_mono (hsettle id w) fun _ _ hq => ⟨hq, fun _ _ => trivial⟩
    refine Protocol.wp_bind (Protocol.wp_mono hall ?_)
    rintro (e | ps) w₂ ⟨hq₂, _⟩
    · exact hq₁.trans hq₂
    · exact hq₁.trans hq₂

end Requests

end Baerly
