import Baerly.Lib.Solo
import Baerly.Verify.Commits
import Baerly.Verify.Fsck
import Baerly.Verify.Reads
import Baerly.Verify.Requests
import Baerly.Verify.Safety

/-
  A collection never gets stuck.

  SPEC: from every reachable state, wherever the other calls crashed or stand still, a commit that is
  scheduled alone puts its entry at the tail, a scan returns every committed row, and an insert commits
  or is told of the row that is there.

  CRUX: nothing is ever locked.  The slot at the tail is free and the log is dense below it, so the
  gallop ends there if it is less than 131072 above the hint.
-/

namespace Baerly

open Async Fsck

variable {codec : Codec} {c : Collection} {w w' : World} {t : Nat} {α β : Type}

/-! ## Programs that only read -/

/-- A request that only reads. -/
def Op.Reads : Op → Prop
  | .getCurrent => True
  | .getLog _ _ => True
  | .getSnapshot _ => True
  | .schedule _ => True
  | _ => False

section Reads

theorem reads_readCurrentJson : (readCurrentJson c).Asks Op.Reads (fun _ => True) := by
  refine Prog.Asks.bind (p := Task.getCurrent) (asks_get trivial) ?_
  rintro (_ | body) _
  · trivial
  · exact asks_check.bind fun _ _ => trivial

theorem reads_getLog (why : Purpose) (n : Nat) : (Task.getLog why n).Asks Op.Reads (fun _ => True) :=
  asks_get trivial

/-- Looking whether a slot is taken only reads. -/
theorem reads_slotExists (n : Nat) : (slotExists n).Asks Op.Reads (fun _ => True) :=
  (reads_getLog .tailFind n).bind fun _ _ => trivial

theorem reads_bisect : ∀ fuel lo hi : Nat, (bisect fuel lo hi).Asks Op.Reads (fun _ => True) := by
  intro fuel
  induction fuel with
  | zero => exact fun _ _ => trivial
  | succ fuel ih =>
    intro lo hi
    rw [bisect]
    split
    · trivial
    · refine (reads_slotExists _).bind ?_
      rintro (_ | _) _
      · exact ih _ _
      · exact ih _ _

theorem reads_gallop (hint : Nat) :
    ∀ fuel lo step : Nat, (gallop c hint fuel lo step).Asks Op.Reads (fun _ => True) := by
  intro fuel
  induction fuel with
  | zero => exact fun _ _ => trivial
  | succ fuel ih =>
    intro lo step
    refine (reads_slotExists _).bind ?_
    rintro (_ | _) _
    · exact reads_bisect _ _ _
    · show Prog.Asks Op.Reads _ (if logForwardProbeCap < step * 2 then _ else _)
      split
      · trivial
      · exact ih _ _

/-- The search for the tail only reads. -/
theorem reads_findLogTail (hint : Nat) : (findLogTail c hint).Asks Op.Reads (fun _ => True) := by
  refine (reads_slotExists _).bind ?_
  rintro (_ | _) _
  · trivial
  · exact reads_gallop _ _ _ _

theorem reads_walkChunk (why : Purpose) (seqs : List Nat) :
    (walkChunk c why seqs).Asks Op.Reads (fun _ => True) := by
  have hentry : ∀ n, (readLogEntry c why n).Asks Op.Reads (fun _ => True) := by
    intro n
    refine (reads_getLog why n).bind ?_
    rintro (_ | entry) _
    · trivial
    · trivial
  have hall : (Task.all (readLogEntry c why) seqs).Asks Op.Reads (fun _ => True) :=
    ⟨trivial, fun _ => Prog.Asks.gather hentry _⟩
  exact hall.bind fun _ _ => trivial

theorem reads_walkLoop (why : Purpose) :
    ∀ fuel seq stop : Nat, (walkLoop c why fuel seq stop).Asks Op.Reads (fun _ => True) := by
  intro fuel
  induction fuel with
  | zero => exact fun _ _ => trivial
  | succ fuel ih =>
    intro seq stop
    rw [walkLoop]
    split
    · trivial
    · exact (reads_walkChunk why _).bind fun _ _ => (ih _ _).bind fun _ _ => trivial

/-- So does a walk. -/
theorem reads_walkLogRange (why : Purpose) (fromSeq stop : Nat) :
    (walkLogRange c why fromSeq stop).Asks Op.Reads (fun _ => True) :=
  reads_walkLoop why _ fromSeq stop

theorem reads_probeLoop (why : Purpose) : ∀ (cap seq : Nat) (acc : List LogEntry),
    (probeLoop why cap seq acc).Asks Op.Reads (fun _ => True) := by
  intro cap
  induction cap with
  | zero => exact fun _ _ => trivial
  | succ cap ih =>
    intro seq acc
    refine (reads_getLog why seq).bind ?_
    rintro (_ | entry) _
    · trivial
    · exact ih _ _

/-- So does the probe. -/
theorem reads_probeTailFrom (why : Purpose) (hint : Nat) :
    (probeTailFrom c why hint).Asks Op.Reads (fun _ => True) := by
  refine (reads_probeLoop why logForwardProbeCap hint []).bind ?_
  rintro (⟨tail, entries⟩ | ⟨bound, entries⟩) _
  · trivial
  · trivial

/-- So does loading the snapshot. -/
theorem reads_loadBase (current : CurrentJson) :
    (loadBase codec c current).Asks Op.Reads (fun _ => True) := by
  unfold loadBase
  cases current.snapshot with
  | none => trivial
  | some key =>
    refine Prog.Asks.bind (p := Task.getSnapshot key) (asks_get trivial) ?_
    rintro (_ | body) _
    · trivial
    · exact asks_check

/-- **A scan only reads.** -/
theorem reads_runReadRows (why : Purpose) (state : QueryState) :
    (runReadRows codec c why state).Asks Op.Reads (fun _ => True) := by
  refine reads_readCurrentJson.bind ?_
  rintro (_ | head) _
  · trivial
  · refine (reads_loadBase head).bind fun base _ => ?_
    refine (reads_walkLogRange why _ _).bind fun entries _ => ?_
    refine (reads_probeTailFrom why _).bind ?_
    rintro ⟨tail, probed⟩ _
    exact asks_check.bind fun _ _ => trivial

/-- So does the search for the row before a commit. -/
theorem reads_readPreImage (collection docId : JsString) :
    ∀ budget seq : Nat, (readPreImage collection docId budget seq).Asks Op.Reads (fun _ => True) := by
  intro budget
  induction budget with
  | zero => exact fun _ => trivial
  | succ budget ih =>
    intro seq
    cases seq with
    | zero => trivial
    | succ seq =>
      refine (reads_getLog .preImage seq).bind ?_
      rintro (_ | entry) _
      · exact ih seq
      · show Prog.Asks Op.Reads _ (if _ then _ else _)
        split
        · exact ih seq
        · show Prog.Asks Op.Reads _ (if _ then _ else _)
          split
          · trivial
          · cases entry.after with
            | none => exact ih seq
            | some doc => trivial

/-- And what is made of it. -/
theorem reads_staleIndexKeys (cfg : WriterConfig) (input : CommitInput) (seq : Nat) :
    (staleIndexKeys cfg input seq).Asks Op.Reads (fun _ => True) := by
  unfold staleIndexKeys
  split
  · trivial
  · exact (reads_readPreImage _ _ _ _).bind fun _ _ =>
      asks_check.bind fun _ _ => asks_check.bind fun _ _ => trivial
  · exact (reads_readPreImage _ _ _ _).bind fun _ _ => asks_check

end Reads

/-- What the bucket answers while nobody writes. -/
def World.standing (w : World) : (op : Op) → Resp op
  | .getCurrent => .ok w.cur
  | .getLog _ n => .ok (w.log n)
  | .getSnapshot key => .ok (w.snap key)
  | .getPending => .ok w.pending
  | .listSnapshots _ => .ok []
  | .send _ => 0
  | .await _ => .ok none
  | .now => 0
  | .mintGeneration => []
  | .schedule n => List.range n
  | .aborted => false

/-- A bucket that nobody changes answers each request alike. -/
theorem standing_still (w : World) : StillStore w w.standing where
  current := rfl
  log := ⟨fun _ _ => rfl⟩
  snapshot := fun _ => rfl
  schedule := fun n => .refl (List.range n)

/-- Only reads were recorded. -/
def Recorded (w w' : World) : Prop :=
  ∃ events, w' = { w with trace := w.trace ++ events }

theorem Recorded.refl (w : World) : Recorded w w :=
  ⟨[], by rw [List.append_nil]⟩

/-- What is recorded adds up. -/
theorem Recorded.trans {w'' : World} (h : Recorded w w') (h' : Recorded w' w'') : Recorded w w'' := by
  obtain ⟨events, rfl⟩ := h
  obtain ⟨events', rfl⟩ := h'
  exact ⟨events ++ events', by rw [← List.append_assoc]⟩

/-- A read is answered at once. -/
theorem exec_reads {op : Op} (hop : op.Reads) :
    ∃ pick w', exec t op pick w = some (w.standing op, w') ∧ Recorded w w' := by
  cases op with
  | getCurrent => exact ⟨.ok, _, rfl, _, rfl⟩
  | getLog why n => exact ⟨.ok, _, rfl, _, rfl⟩
  | getSnapshot key => exact ⟨.ok, w, rfl, .refl w⟩
  | schedule n => exact ⟨.order (List.range n), w, if_pos (.refl _), .refl w⟩
  | _ => exact hop.elim

/-- A program that only reads can end as the bucket answers it. -/
theorem can_read {p : Task α} (hp : p.Asks Op.Reads (fun _ => True)) {r : Except Err α}
    (h : p.eval w.standing = r) :
    (deployed codec c).can t p (fun r' w' => r' = r ∧ Recorded w w') w := by
  refine Machine.can_mono (Machine.can_eval w.standing Recorded.refl Recorded.trans ?_ hp) ?_
  · rintro w₁ ⟨events, rfl⟩ op hop
    exact exec_reads hop
  · rintro r' w₁ ⟨rfl, hw⟩
    exact ⟨h, hw⟩

/-- **A program that only reads** can end with what it evaluates to on the bucket as it stands. -/
theorem resolves_read {p : Task α} (hp : p.Asks Op.Reads (fun _ => True)) {a : α}
    (h : p.eval w.standing = .ok a) :
    (deployed codec c).resolves t p (fun a' w' => a' = a ∧ Recorded w w') w :=
  Machine.can_mono (can_read hp h) fun _ _ ⟨hr, hw⟩ => ⟨a, hr, rfl, hw⟩

/-! ## Writing markers -/

/-- A write of an index marker. -/
def Req.isMarkerWrite : Req → Bool
  | .createMarker _ => true
  | .deleteMarker _ => true
  | _ => false

/-- The manifest, the log and what was committed are the same, and no message was taken back. -/
structure Unmoved (w w' : World) : Prop where
  cur : w'.cur = w.cur
  log : w'.log = w.log
  hist : w'.hist = w.hist
  net : ∀ (i : Nat) (m : Msg), w.net[i]? = some m → ∃ m' : Msg, w'.net[i]? = some m' ∧
    m'.owner = m.owner ∧ m'.req = m.req ∧ m'.void = m.void

theorem Unmoved.refl (w : World) : Unmoved w w :=
  ⟨rfl, rfl, rfl, fun _ m hm => ⟨m, hm, rfl, rfl, rfl⟩⟩

/-- Two steps that move nothing move nothing. -/
theorem Unmoved.trans {w'' : World} (h : Unmoved w w') (h' : Unmoved w' w'') : Unmoved w w'' where
  cur := h'.cur.trans h.cur
  log := h'.log.trans h.log
  hist := h'.hist.trans h.hist
  net := by
    intro i m hm
    obtain ⟨m', hm', howner, hreq, hvoid⟩ := h.net i m hm
    obtain ⟨m'', hm'', howner', hreq', hvoid'⟩ := h'.net i m' hm'
    exact ⟨m'', hm'', howner'.trans howner, hreq'.trans hreq, hvoid'.trans hvoid⟩

/-- Recording moves nothing. -/
theorem Recorded.unmoved (h : Recorded w w') : Unmoved w w' := by
  obtain ⟨events, rfl⟩ := h
  exact ⟨rfl, rfl, rfl, fun _ m hm => ⟨m, hm, rfl, rfl, rfl⟩⟩

/-- The bucket with one more message. -/
def World.push (w : World) (t : Nat) (r : Req) : World :=
  { w with net := w.net ++ [⟨t, r, false, false, false⟩] }

/-- Nor does sending. -/
theorem push_unmoved (w : World) (t : Nat) (r : Req) : Unmoved w (w.push t r) := by
  refine ⟨rfl, rfl, rfl, fun i m hm => ⟨m, ?_, rfl, rfl, rfl⟩⟩
  show (w.net ++ _)[i]? = some m
  rw [List.getElem?_append_left (List.getElem?_eq_some_iff.mp hm).1]
  exact hm

/-- What was sent is the last message. -/
theorem push_self (w : World) (t : Nat) (r : Req) :
    (w.push t r).net[w.net.length]? = some ⟨t, r, false, false, false⟩ :=
  List.getElem?_concat_length

/-- A message that is set is there. -/
theorem setMsg_self {i : Nat} {m m' : Msg} (hm : w.net[i]? = some m) :
    (w.setMsg i m').net[i]? = some m' :=
  List.getElem?_set_self (List.getElem?_eq_some_iff.mp hm).1

/-- Telling a message more of its fate moves nothing. -/
theorem setMsg_unmoved {i : Nat} {m m' : Msg} (hm : w.net[i]? = some m) (howner : m'.owner = m.owner)
    (hreq : m'.req = m.req) (hvoid : m'.void = m.void) : Unmoved w (w.setMsg i m') := by
  refine ⟨rfl, rfl, rfl, fun j x hx => ?_⟩
  by_cases hij : i = j
  · subst hij
    rw [hm] at hx
    cases hx
    exact ⟨m', setMsg_self hm, howner, hreq, hvoid⟩
  · exact ⟨x, (List.getElem?_set_ne hij).trans hx, rfl, rfl, rfl⟩

/-- The store delivers a message, and its sender hears of it. -/
theorem can_outcome {id : Nat} {m : Msg} {Q : Except Err (Option JsString) → World → Prop}
    (hm : w.net[id]? = some m) (howner : m.owner = t) (hvoid : m.void = false)
    (happlied : ∀ w₁, applyReq w m.req = some w₁ →
      Q (.ok none) (w₁.setMsg id { m with applied := true }))
    (hrefused : applyReq w m.req = none →
      Q (.error (.mk .writeConflict "")) (w.setMsg id { m with refused := true })) :
    (deployed codec c).can t (Task.outcome id) Q w := by
  subst howner
  cases ha : applyReq w m.req with
  | some w₁ =>
    have hd : deliver id w = some (w₁.setMsg id { m with applied := true }) := by
      simp only [deliver, hm, hvoid, ha, Bool.false_eq_true, if_false]
    have hnet : w₁.net[id]? = some m := by rw [(applyReq_frame ha).1]; exact hm
    have hself := @setMsg_self w₁ id m { m with applied := true } hnet
    refine ⟨_, .step hd (.refl _), .acked none, .ok none, _, ?_, happlied w₁ ha⟩
    show exec m.owner (.await id) (.acked none) _ = _
    simp only [exec, hself, ne_eq, not_true_eq_false, if_false, if_true]
  | none =>
    have hd : deliver id w = some (w.setMsg id { m with refused := true }) := by
      simp only [deliver, hm, hvoid, ha, Bool.false_eq_true, if_false]
    have hself := @setMsg_self w id m { m with refused := true } hm
    refine ⟨_, .step hd (.refl _), .conflict "", .error (.mk .writeConflict ""), _, ?_, hrefused ha⟩
    show exec m.owner (.await id) (.conflict "") _ = _
    simp only [exec, hself, ne_eq, not_true_eq_false, if_false, if_true]

/-- A write that is delivered before anything else happens. -/
theorem can_write {r : Req} {Q : Except Err (Option JsString) → World → Prop}
    (hno : noCollision w r = true)
    (happlied : ∀ w₁, applyReq (w.push t r) r = some w₁ →
      Q (.ok none) (w₁.setMsg w.net.length ⟨t, r, true, false, false⟩))
    (hrefused : applyReq (w.push t r) r = none → Q (.error (.mk .writeConflict ""))
      ((w.push t r).setMsg w.net.length ⟨t, r, false, true, false⟩)) :
    (deployed codec c).can t (Task.write r) Q w := by
  have hsend : (deployed codec c).exec t (.send r) .ok w = some (w.net.length, w.push t r) := if_pos hno
  refine Machine.can_call hsend ?_
  exact can_outcome (push_self w t r) rfl rfl happlied hrefused

/-- Nor does a marker write. -/
theorem markerWrite_unmoved {r : Req} {w₁ : World} (hr : r.isMarkerWrite = true)
    (ha : applyReq w r = some w₁) : Unmoved w w₁ := by
  cases r with
  | createMarker key =>
    simp only [applyReq] at ha
    split at ha
    · cases ha
    · cases ha
      exact ⟨rfl, rfl, rfl, fun _ m hm => ⟨m, hm, rfl, rfl, rfl⟩⟩
  | deleteMarker key =>
    cases ha
    exact ⟨rfl, rfl, rfl, fun _ m hm => ⟨m, hm, rfl, rfl, rfl⟩⟩
  | _ => cases hr

/-- A marker write of thread `t` that the store has not thrown away. -/
def InFlight (t id : Nat) (w : World) : Prop :=
  ∃ m, w.net[id]? = some m ∧ m.owner = t ∧ m.void = false ∧ m.req.isMarkerWrite = true

/-- A message stays in flight. -/
theorem InFlight.unmoved {id : Nat} (h : InFlight t id w) (hu : Unmoved w w') : InFlight t id w' := by
  obtain ⟨m, hm, howner, hvoid, hreq⟩ := h
  obtain ⟨m', hm', howner', hreq', hvoid'⟩ := hu.net id m hm
  exact ⟨m', hm', howner'.trans howner, hvoid'.trans hvoid, by rw [hreq']; exact hreq⟩

/-- A batch of marker writes can be sent. -/
theorem can_sendAll {rs : List Req} : ∀ (w : World), (∀ r ∈ rs, r.isMarkerWrite = true) →
    (deployed codec c).resolves t (Task.sendAll rs) (fun ids w' =>
      (∀ id ∈ ids, InFlight t id w') ∧ Unmoved w w') w := by
  induction rs with
  | nil => exact fun w _ => Machine.resolves_ret ⟨fun id hid => absurd hid List.not_mem_nil, .refl w⟩
  | cons r rs ih =>
    intro w hrs
    have hr := hrs r List.mem_cons_self
    have hno : noCollision w r = true := by
      cases r with
      | createMarker key => rfl
      | deleteMarker key => rfl
      | _ => cases hr
    have hsend : (deployed codec c).exec t (.send r) .ok w = some (w.net.length, w.push t r) :=
      if_pos hno
    refine Machine.can_call hsend ?_
    refine Machine.can_seq (ih (w.push t r) fun r' hr' => hrs r' (List.mem_cons_of_mem r hr')) ?_
    rintro ids w₂ ⟨hall, hu⟩
    refine Machine.resolves_ret ⟨fun id hid => ?_, (push_unmoved w t r).trans hu⟩
    rcases List.mem_cons.mp hid with rfl | hid
    · exact InFlight.unmoved ⟨_, push_self w t r, rfl, rfl, hr⟩ hu
    · exact hall id hid

/-- The outcome of a write that was delivered. -/
def Heard (r : Except Err (Option JsString)) : Prop :=
  (∃ date, r = .ok date) ∨ ∃ message, r = .error (.mk .writeConflict message)

/-- And each can be heard of. -/
theorem can_marker {id : Nat} (h : InFlight t id w) :
    (deployed codec c).can t (Task.outcome id) (fun r w' => Heard r ∧ Unmoved w w') w := by
  obtain ⟨m, hm, howner, hvoid, hreq⟩ := h
  refine can_outcome hm howner hvoid (fun w₁ ha => ⟨Or.inl ⟨none, rfl⟩, ?_⟩) fun _ =>
    ⟨Or.inr ⟨_, rfl⟩, setMsg_unmoved hm rfl rfl rfl⟩
  have hnet : w₁.net[id]? = some m := by
    rw [(applyReq_frame ha).1]
    exact hm
  exact (markerWrite_unmoved hreq ha).trans (setMsg_unmoved hnet rfl rfl rfl)

/-- A handler that takes both outcomes of a delivered write. -/
def Handles (codec : Codec) (c : Collection) (t : Nat)
    (settle : Task (Option JsString) → Task Unit) : Prop :=
  ∀ p w, (deployed codec c).can t p (fun r w' => Heard r ∧ Unmoved w w') w →
    (deployed codec c).resolves t (settle p) (fun _ w' => Unmoved w w') w

/-- What a commit makes of a marker write lets it go on. -/
theorem handles_settleMarker : Handles codec c t settleMarker := by
  intro p w hp
  refine Machine.can_seq (Machine.resolves_attempt hp) ?_
  rintro x w' ⟨⟨date, rfl⟩ | ⟨message, rfl⟩, hu⟩
  · exact Machine.resolves_ret hu
  · exact Machine.resolves_ret hu

/-- So does ignoring how it ended. -/
theorem handles_ignore : Handles codec c t fun p => (Prog.attempt p).bind fun _ => .ret () :=
  fun _ _ hp => Machine.can_seq (Machine.resolves_attempt hp) fun _ _ h => Machine.resolves_ret h.2

/-- Marker writes that leave together all come to their end. -/
theorem can_writeAll {settle : Task (Option JsString) → Task Unit} {rs : List Req}
    (hsettle : Handles codec c t settle) (hrs : ∀ r ∈ rs, r.isMarkerWrite = true) :
    (deployed codec c).resolves t (Task.writeAll settle rs) (fun _ w' => Unmoved w w') w := by
  refine Machine.can_seq (can_sendAll w hrs) ?_
  rintro ids w₁ ⟨hall, hu⟩
  have hsched : (deployed codec c).exec t (.schedule ids.length) (.order (List.range ids.length)) w₁ =
      some (List.range ids.length, w₁) := if_pos (.refl _)
  have hevery : (deployed codec c).resolves t (Task.all (fun id => settle (Task.outcome id)) ids)
      (fun _ w' => Unmoved w₁ w') w₁ := by
    refine Machine.can_call hsched ?_
    rw [filterMap_range_getElem?]
    exact Machine.resolves_gather Unmoved.refl Unmoved.trans ids w₁ fun id hid w₂ hu₂ =>
      hsettle _ w₂ (can_marker ((hall id hid).unmoved hu₂))
  exact Machine.can_seq hevery fun _ w₂ hu₂ => Machine.resolves_ret (hu.trans hu₂)

/-! ## The commit -/

/-- The manifest is in place, and the log above what it folded is what was committed. -/
structure Clear (w : World) (m : CurrentJson) : Prop where
  cur : w.cur = some m
  wf : m.WellFormed
  floor_le : certifiedDeleteFloor m ≤ w.tail
  hint_le : m.tailHint ≤ w.tail
  log : ∀ n, m.logSeqStart ≤ n → w.log n = w.hist[n]?

/-- Nothing is in the way of a commit. -/
def Unlocked (w : World) : Prop :=
  (w.cur = none ∧ w.hist = [] ∧ ∀ n, w.log n = none) ∨ ∃ m, Clear w m

theorem Unmoved.tail (h : Unmoved w w') : w'.tail = w.tail := by
  unfold World.tail
  rw [h.hist]

/-- What stands clear stands clear where nothing moved. -/
theorem Clear.unmoved {m : CurrentJson} (h : Clear w m) (hu : Unmoved w w') : Clear w' m where
  cur := hu.cur.trans h.cur
  wf := h.wf
  floor_le := by
    rw [hu.tail]
    exact h.floor_le
  hint_le := by
    rw [hu.tail]
    exact h.hint_le
  log := by
    rw [hu.log, hu.hist]
    exact h.log

/-- And lets a commit through. -/
theorem Unlocked.unmoved (h : Unlocked w) (hu : Unmoved w w') : Unlocked w' := by
  rcases h with ⟨hcur, hhist, hlog⟩ | ⟨m, hm⟩
  · exact Or.inl ⟨hu.cur.trans hcur, hu.hist.trans hhist, by rw [hu.log]; exact hlog⟩
  · exact Or.inr ⟨m, hm.unmoved hu⟩

/-- **No reachable bucket is locked.** -/
theorem Inv.unlocked (h : Inv codec c w) : Unlocked w := by
  cases hcur : w.cur with
  | none =>
    have hhist := h.unborn hcur
    refine Or.inl ⟨hcur, hhist, fun n => ?_⟩
    have hfloor : w.floor = 0 := by
      unfold World.floor
      rw [hcur]
    rw [h.dense n (by omega), hhist]
    rfl
  | some m =>
    have hm := h.manifest m hcur
    have hfloor : w.floor = certifiedDeleteFloor m := by
      unfold World.floor
      rw [hcur]
    have hle : certifiedDeleteFloor m ≤ m.logSeqStart := certifiedDeleteFloor_le m
    have hstart := hm.wf.start_le
    have hhint := hm.hint_le
    exact Or.inr ⟨m, hcur, hm.wf, by omega, hhint, fun n hn => h.dense n (by omega)⟩

/-- The hint of the world is the manifest's. -/
theorem Clear.hint_eq {m : CurrentJson} (h : Clear w m) : w.hint = m.tailHint := by
  unfold World.hint
  rw [h.cur]

theorem Clear.start_le {m : CurrentJson} (h : Clear w m) : m.logSeqStart ≤ w.tail :=
  Nat.le_trans h.wf.start_le h.hint_le

/-- Above `log_seq_start` the slots below the tail are taken. -/
theorem Clear.occupied {m : CurrentJson} (h : Clear w m) {n : Nat} (hn : m.logSeqStart ≤ n) :
    (w.log n).isSome = true ↔ n < w.tail := by
  rw [h.log n hn, Option.isSome_iff_exists]
  exact ⟨fun ⟨e, he⟩ => (List.getElem?_eq_some_iff.mp he).1,
    fun hlt => ⟨_, List.getElem?_eq_getElem hlt⟩⟩

/-- And none from the tail on. -/
theorem Clear.free {m : CurrentJson} (h : Clear w m) {n : Nat} (hn : w.tail ≤ n) : w.log n = none := by
  rw [h.log n (h.start_le.trans hn)]
  exact List.getElem?_eq_none hn

/-- So the log is dense from the hint on. -/
theorem Clear.dense {m : CurrentJson} (h : Clear w m) : DenseFrom w.log m.tailHint w.tail where
  le := h.hint_le
  occupied := fun _ hn => h.occupied (Nat.le_trans h.wf.start_le hn)

/-- The manifest a commit provisions is well formed. -/
theorem zeroManifest_wf {g : JsString} (hg : generationOk g = true) : (zeroManifest g).WellFormed where
  start_le := Nat.le_refl 0
  generation := by
    intro g' hg'
    cases hg'
    exact hg

/-- Only the manifest came. -/
structure Provisioned (m : CurrentJson) (w w' : World) : Prop where
  cur : w'.cur = some m
  log : w'.log = w.log
  hist : w'.hist = w.hist

/-- The first manifest of a bucket. -/
theorem can_createCurrentJson {m : CurrentJson} (hwf : m.WellFormed) (hcur : w.cur = none) :
    (deployed codec c).resolves t (createCurrentJson c m)
      (fun m' w' => m' = m ∧ Provisioned m w w') w := by
  have hland : applyReq (w.push t (.createCurrent m)) (.createCurrent m) =
      some { w.push t (.createCurrent m) with cur := some m } := if_pos hcur
  have hwrite : (deployed codec c).resolves t (writeCurrent c (.createCurrent m))
      (fun _ w' => Provisioned m w w') w := by
    refine Machine.can_tryCatch (can_write (Q := fun r w' => ∃ date, r = .ok date ∧ Provisioned m w w')
      rfl ?_ ?_) (fun _ _ h => h) ?_
    · intro w₁ hw₁
      rw [hland] at hw₁
      cases hw₁
      exact ⟨none, rfl, rfl, rfl, rfl⟩
    · intro hrefused
      rw [hland] at hrefused
      cases hrefused
    · rintro e w₁ ⟨date, he, -⟩
      cases he
  unfold createCurrentJson
  rw [(assertCurrentJson_toJson_iff c.currentJsonKey m).mpr hwf]
  show (deployed codec c).resolves t ((writeCurrent c (.createCurrent m)).bind _) _ w
  exact Machine.can_seq hwrite fun _ w₁ hw₁ => Machine.resolves_ret ⟨rfl, hw₁⟩

/-- The manifest is in place, where the bucket says or at the start. -/
def Ready (w : World) (m : CurrentJson) (w' : World) : Prop :=
  Clear w' m ∧ m.tailHint = w.hint ∧ w'.hist = w.hist

/-- The manifest that a commit on an empty bucket leaves. -/
theorem can_provision (hcur : w.cur = none) (hhist : w.hist = []) (hlog : ∀ n, w.log n = none) :
    (deployed codec c).resolves t (provisionCurrentJson c) (Ready w) w := by
  have hgen : generationOk (js "0a") = true := by decide
  have hmint : (deployed codec c).exec t .mintGeneration (.nonce (js "0a")) w = some (js "0a", w) := by
    show (if generationOk (js "0a") then some (js "0a", w) else none) = _
    rw [if_pos hgen]
  have hhint : w.hint = 0 := by
    unfold World.hint
    rw [hcur]
  have hwf := zeroManifest_wf hgen
  refine Machine.can_call hmint ?_
  show (deployed codec c).resolves t
    ((Prog.attempt (createCurrentJson c (zeroManifest (js "0a")))).bind _) _ w
  refine Machine.can_seq (Machine.resolves_attempt (can_createCurrentJson hwf hcur)) ?_
  rintro x w₁ ⟨m, rfl, rfl, hpro⟩
  refine Machine.resolves_ret ⟨⟨hpro.cur, hwf, Nat.zero_le _, Nat.zero_le _, fun n _ => ?_⟩, hhint.symm,
    hpro.hist⟩
  rw [hpro.log, hpro.hist, hlog n, hhist]
  rfl

/-- Step 1 leaves a manifest in place. -/
theorem can_readOrProvision (h : Unlocked w) :
    (deployed codec c).resolves t (readOrProvision c) (Ready w) w := by
  rcases h with ⟨hcur, hhist, hlog⟩ | ⟨m, hm⟩
  · have hread : (readCurrentJson c).eval w.standing = .ok none := by
      show ((Task.ofExcept (.ok w.cur)).bind _).eval w.standing = _
      rw [hcur]
      rfl
    refine Machine.can_seq (resolves_read reads_readCurrentJson hread) ?_
    rintro _ w₁ ⟨rfl, events, rfl⟩
    exact can_provision hcur hhist hlog
  · refine Machine.can_seq (resolves_read reads_readCurrentJson
      (eval_readCurrentJson (standing_still w) hm.cur hm.wf)) ?_
    rintro _ w₁ ⟨rfl, hrec⟩
    have hu := hrec.unmoved
    exact Machine.resolves_ret ⟨hm.unmoved hu, hm.hint_eq.symm, hu.hist⟩

/-- Step 2 finds every slot it walks. -/
theorem can_walkLog {m : CurrentJson} (h : Clear w m) (cfg : WriterConfig) :
    (deployed codec c).resolves t (walkLog cfg c m) (fun _ w' => Unmoved w w') w := by
  unfold walkLog
  split
  · have hpresent : ∀ n, m.logSeqStart ≤ n → n < m.tailHint → (w.log n).isSome = true :=
      fun n hn hlt => (h.occupied hn).mpr (Nat.lt_of_lt_of_le hlt h.hint_le)
    have hwalk := eval_walkLogRange (c := c) (standing_still w) .tailFind hpresent
    refine Machine.can_seq (resolves_read (reads_walkLogRange .tailFind _ _) hwalk) ?_
    rintro _ w₁ ⟨-, hrec⟩
    exact Machine.resolves_ret hrec.unmoved
  · exact Machine.resolves_ret (.refl w)

/-- What a commit is not refused for, and is near enough to the tail to find it. -/
structure Admissible (cfg : WriterConfig) (c : Collection) (input : CommitInput) (w : World) :
    Prop where
  checked : input.precheck cfg = .ok ()
  /-- The key of the slot is not too long, nor is any marker's. -/
  slotFits : assertKeyWithinLimit (logObjectKey c.collectionPrefix w.tail) = .ok ()
  markersFit : cfg.indexed = true → input.op ≠ .D → ∃ keys,
    cfg.allIndexKeysFor input.body input.docId = .ok keys ∧ ∀ key ∈ keys, utf8Length key ≤ maxKeyBytes
  near : input.insertGuard = none → w.tail < w.hint + 131072
  guarded : ∀ guard, input.insertGuard = some guard → guard.absentBelowSeq = w.tail

/-- Step 3 finds the tail, and nothing to refuse or replay. -/
theorem can_findSlot {m : CurrentJson} {input : CommitInput} (h : Clear w m)
    (hnear : input.insertGuard = none → w.tail < m.tailHint + 131072)
    (hguarded : ∀ guard, input.insertGuard = some guard → guard.absentBelowSeq = w.tail) :
    (deployed codec c).resolves t (findSlot c input m) (fun found w' =>
      (∃ window, found = .ok (w.tail, window)) ∧ Unmoved w w') w := by
  unfold findSlot
  cases hguard : input.insertGuard with
  | none =>
    have hmax : max m.logSeqStart m.tailHint = m.tailHint := Nat.max_eq_right h.wf.start_le
    have hfound := (eval_findLogTail (standing_still w).log h.dense c).1 (hnear hguard)
    dsimp only
    rw [hmax]
    refine Machine.can_seq (resolves_read (reads_findLogTail _) hfound) ?_
    rintro _ w₁ ⟨rfl, hrec⟩
    exact Machine.resolves_ret ⟨⟨[], rfl⟩, hrec.unmoved⟩
  | some guard =>
    have habsent := hguarded guard hguard
    have hstart := h.start_le
    have hmax : max guard.absentBelowSeq m.logSeqStart = w.tail := by omega
    have hfolded : readFoldedInsertWindow c guard.absentBelowSeq m.logSeqStart = .ret [] := by
      unfold readFoldedInsertWindow
      rw [habsent, if_pos hstart]
    have hcap : 0 < logForwardProbeCap := by decide
    have hprobe : (probeTailFrom c .guard w.tail).eval w.standing =
        .ok (w.tail, slots w w.tail w.tail) :=
      eval_probeTail (standing_still w) .guard (Nat.le_refl _) (by omega) (h.free (Nat.le_refl _))
        fun n hn hlt => absurd hlt (Nat.not_lt_of_le hn)
    have hnone : slots w w.tail w.tail = [] := by
      rw [slots, Nat.sub_self]
      rfl
    rw [hnone] at hprobe
    dsimp only
    rw [hfolded, hmax]
    show (deployed codec c).resolves t ((probeTailFrom c .guard w.tail).bind _) _ w
    refine Machine.can_seq (resolves_read (reads_probeTailFrom .guard _) hprobe) ?_
    rintro _ w₁ ⟨rfl, hrec⟩
    exact Machine.resolves_ret ⟨⟨[], rfl⟩, hrec.unmoved⟩

/-- Step 4 puts every marker. -/
theorem can_putMarkers {cfg : WriterConfig} {input : CommitInput}
    (hfit : cfg.indexed = true → input.op ≠ .D → ∃ keys,
      cfg.allIndexKeysFor input.body input.docId = .ok keys ∧
        ∀ key ∈ keys, utf8Length key ≤ maxKeyBytes) :
    (deployed codec c).resolves t (putMarkers cfg input) (fun _ w' => Unmoved w w') w := by
  unfold putMarkers
  split
  · exact Machine.resolves_ret (.refl w)
  next hmark =>
    have hindexed : cfg.indexed = true := by
      by_contra hno
      exact hmark (Or.inl (by simpa using hno))
    obtain ⟨keys, hkeys, hshort⟩ := hfit hindexed fun hop => hmark (Or.inr hop)
    have hfind : (keys.find? fun key => !decide (utf8Length key ≤ maxKeyBytes)) = none := by
      rw [List.find?_eq_none]
      intro key hkey
      simpa using hshort key hkey
    rw [hkeys]
    dsimp only [Task.ofExcept, Prog.bind_eq, Prog.bind]
    rw [hfind]
    show (deployed codec c).resolves t
      ((Task.writeAll settleMarker (keys.map Req.createMarker)).bind _) _ w
    have hmarkers : ∀ r ∈ keys.map Req.createMarker, r.isMarkerWrite = true := by
      intro r hr
      obtain ⟨key, -, rfl⟩ := List.mem_map.mp hr
      rfl
    exact Machine.can_seq (can_writeAll handles_settleMarker hmarkers) fun _ w₁ hu =>
      Machine.resolves_ret hu

/-- The entry is at the tail, and the manifest where it was. -/
structure Appended (e : LogEntry) (w w' : World) : Prop where
  cur : w'.cur = w.cur
  hist : w'.hist = w.hist ++ [e]

/-- Step 5 takes the free slot. -/
theorem can_createLoop {session ms : Nat} {input : CommitInput} (probes : Nat) {window : List LogEntry}
    (hfree : w.log w.tail = none)
    (hfits : assertKeyWithinLimit (logObjectKey c.collectionPrefix w.tail) = .ok ()) :
    (deployed codec c).resolves t (createLoop c session ms input probes window w.tail)
      (fun outcome w' =>
      outcome = .committed (mintEntry session ms input w.tail) ∧
        Appended (mintEntry session ms input w.tail) w w') w := by
  obtain ⟨lost, hloop⟩ : ∃ lost, createLoop c session ms input probes window w.tail =
      createStep c session ms input w.tail lost := by
    cases probes with
    | zero => exact ⟨_, rfl⟩
    | succ probes => exact ⟨_, rfl⟩
  rw [hloop]
  let e := mintEntry session ms input w.tail
  have hland : applyReq (w.push t (.createLog w.tail e input.insertGuard.isSome))
      (.createLog w.tail e input.insertGuard.isSome) =
        some ((w.push t (.createLog w.tail e input.insertGuard.isSome)).landLog w.tail e) :=
    if_pos hfree
  have hwrite : (deployed codec c).can t (Task.write (.createLog w.tail e input.insertGuard.isSome))
      (fun r w' => r = .ok none ∧ Appended e w w') w := by
    refine can_write rfl ?_ ?_
    · intro w₁ hw₁
      rw [hland] at hw₁
      cases hw₁
      exact ⟨rfl, rfl, if_pos rfl⟩
    · intro hrefused
      rw [hland] at hrefused
      cases hrefused
  unfold createStep
  rw [hfits]
  show (deployed codec c).resolves t ((Prog.attempt (Task.write (.createLog w.tail e _))).bind _) _ w
  refine Machine.can_seq (Machine.resolves_attempt hwrite) ?_
  rintro x w₁ ⟨rfl, happ⟩
  exact Machine.resolves_ret ⟨rfl, happ⟩

/-- Step 5a finds the entry above the floor. -/
theorem can_assertCommitAboveDeleteFloor {m : CurrentJson} (hcur : w.cur = some m) (hwf : m.WellFormed)
    {seq : Nat} (hfloor : certifiedDeleteFloor m ≤ seq) (docId : JsString) :
    (deployed codec c).resolves t (assertCommitAboveDeleteFloor c seq docId)
      (fun checked w' => checked = true ∧ Unmoved w w') w := by
  refine Machine.can_seq (Machine.resolves_attempt (can_read reads_readCurrentJson
    (eval_readCurrentJson (standing_still w) hcur hwf))) ?_
  rintro _ w₁ ⟨rfl, hrec⟩
  show (deployed codec c).resolves t
    (if certifiedDeleteFloor m = 0 ∨ certifiedDeleteFloor m ≤ seq then _ else _) _ w₁
  rw [if_pos (Or.inr hfloor)]
  exact Machine.resolves_ret ⟨rfl, hrec.unmoved⟩

/-- Step 5b comes to an end. -/
theorem can_cleanup (cfg : WriterConfig) (input : CommitInput) (seq : Nat) :
    (deployed codec c).resolves t (cleanupStaleIndexKeysBestEffort cfg input seq)
      (fun _ w' => Unmoved w w') w := by
  unfold cleanupStaleIndexKeysBestEffort
  split
  · exact Machine.resolves_ret (.refl w)
  · refine Machine.can_seq
      (Machine.resolves_attempt (can_read (reads_staleIndexKeys cfg input seq) rfl)) ?_
    rintro (e | staleKeys) w₁ ⟨-, hrec⟩
    · exact Machine.resolves_ret hrec.unmoved
    · have hmarkers : ∀ r ∈ staleKeys.map Req.deleteMarker, r.isMarkerWrite = true := by
        intro r hr
        obtain ⟨key, -, rfl⟩ := List.mem_map.mp hr
        rfl
      exact Machine.can_seq (can_writeAll handles_ignore hmarkers) fun _ w₂ hu =>
        Machine.resolves_ret (hrec.unmoved.trans hu)

/-- The call committed a fresh entry, at what was the tail. -/
structure AtTail (session ms : Nat) (input : CommitInput) (w : World) (s : CommitSuccess) (w' : World) :
    Prop where
  fresh : s.replayed = false
  checked : s.floorChecked = true
  entry : s.entry = mintEntry session ms input w.tail
  hist : w'.hist = w.hist ++ [s.entry]

/-- **A commit gets through where nothing is locked**, with its entry at the tail. -/
theorem can_commit {cfg : WriterConfig} {input : CommitInput} (session ms : Nat)
    (h : Unlocked w) (ha : Admissible cfg c input w) :
    (deployed codec c).resolves t (commit cfg c session input) (AtTail session ms input w) w := by
  unfold commit
  rw [ha.checked]
  show (deployed codec c).resolves t (singleAttemptCommit cfg c session input) _ w
  refine Machine.can_seq (can_readOrProvision h) ?_
  rintro m w₁ ⟨hclear, hhint, hhist⟩
  refine Machine.can_seq (can_walkLog hclear cfg) fun _ w₂ hu₂ => ?_
  have hclear₂ := hclear.unmoved hu₂
  have hhist₂ : w₂.hist = w.hist := hu₂.hist.trans hhist
  have htail₂ : w₂.tail = w.tail := congrArg List.length hhist₂
  refine Machine.can_seq (can_findSlot hclear₂ ?_ ?_) ?_
  · intro hguard
    rw [htail₂, hhint]
    exact ha.near hguard
  · intro guard hguard
    rw [htail₂]
    exact ha.guarded guard hguard
  rintro found w₃ ⟨⟨window, rfl⟩, hu₃⟩
  have hnow : (deployed codec c).exec t .now (.clock ms) w₃ = some (ms, w₃) := rfl
  refine Machine.can_call hnow ?_
  show (deployed codec c).resolves t ((putMarkers cfg input).bind _) _ w₃
  refine Machine.can_seq (can_putMarkers ha.markersFit) fun markers w₄ hu₄ => ?_
  have hu := hu₃.trans hu₄
  have hclear₄ := hclear₂.unmoved hu
  have htail₄ : w₄.tail = w.tail := hu.tail.trans htail₂
  have hfits : assertKeyWithinLimit (logObjectKey c.collectionPrefix w₄.tail) = .ok () := by
    rw [htail₄]
    exact ha.slotFits
  rw [show w₂.tail = w₄.tail from hu.tail.symm]
  refine Machine.can_seq (can_createLoop logForwardProbeCap (hclear₄.free (Nat.le_refl _)) hfits) ?_
  rintro outcome w₅ ⟨rfl, happ⟩
  refine Machine.can_seq (can_assertCommitAboveDeleteFloor (happ.cur.trans hclear₄.cur) hclear₄.wf
    hclear₄.floor_le input.docId) ?_
  rintro checked w₆ ⟨rfl, hu₆⟩
  refine Machine.can_seq (can_cleanup cfg input _) fun stale w₇ hu₇ => Machine.resolves_ret ?_
  refine ⟨rfl, rfl, by rw [htail₄], ?_⟩
  rw [hu₇.hist, hu₆.hist, happ.hist, hu.hist, hhist₂]

/-! ## The scan -/

/-- What a scan of everything that is committed gives. -/
structure SeesAll (c : Collection) (w : World) (state : QueryState) (res : ReadRows) : Prop where
  tail : res.tail = w.tail
  rows : ∃ (docs : Rows) (kept : List StoredRow),
    (∀ id, docs.get id = (committedRows c w.hist w.tail).get id) ∧
    applyPredicate state.wire docs = .ok kept ∧ res.rows = applyOrderLimit state kept

/-- The predicate can be evaluated on every row. -/
def Evaluable (c : Collection) (w : World) (wire : Option PredicateWire) : Prop :=
  ∀ docs : Rows, (∀ id, docs.get id = (committedRows c w.hist w.tail).get id) →
    ∃ kept, applyPredicate wire docs = .ok kept

/-- The snapshot of a reachable bucket loads, and is what it should be. -/
theorem Inv.loads (h : Inv codec c w) {m : CurrentJson} (hcur : w.cur = some m) :
    ∃ base, snapshotRows codec c w m = some base ∧
      ∀ id, base.get id = (committedRows c w.hist m.logSeqStart).get id := by
  have hm := h.manifest m hcur
  cases hsnap : m.snapshot with
  | none =>
    refine ⟨InsMap.empty, by rw [snapshotRows, hsnap], fun id => ?_⟩
    rw [hm.unfolded hsnap]
    rfl
  | some key =>
    obtain ⟨body, hok, happlied⟩ := hm.folded key hsnap
    have hstart : w.start = m.logSeqStart := by
      unfold World.start
      rw [hcur]
    have hbody : w.snap key = some body := by
      rcases h.kept key body happlied with hkept | ⟨n, hparse, hlt⟩
      · exact hkept
      · rw [hok.parse] at hparse
        cases hparse
        omega
    refine ⟨loadDocs body.docs, ?_, hok.rows⟩
    rw [snapshotRows, hsnap]
    show (w.snap key).bind _ = _
    rw [hbody, Option.bind_some, hok.load]
    rfl

/-- The entries of a walk are the committed ones. -/
theorem Clear.slots {m : CurrentJson} (h : Clear w m) {i : Nat} {e : LogEntry}
    (hi : (slots w m.logSeqStart w.tail)[i]? = some e) : w.hist[m.logSeqStart + i]? = some e := by
  have hoccupied : ∀ n ∈ List.range' m.logSeqStart (w.tail - m.logSeqStart), ∃ e, w.log n = some e := by
    intro n hn
    obtain ⟨hlow, hhigh⟩ := List.mem_range'_1.mp hn
    exact Option.isSome_iff_exists.mp ((h.occupied hlow).mpr (by omega))
  have hget := (filterMap_range'_getElem? _ m.logSeqStart hoccupied).2 i e hi
  rwa [h.log _ (Nat.le_add_right _ _)] at hget

/-- The fold of a clear log is what was committed. -/
theorem Clear.foldedRows {m : CurrentJson} (h : Clear w m) {base : Rows}
    (hbase : ∀ id, base.get id = (committedRows c w.hist m.logSeqStart).get id) (id : JsString) :
    (foldedRows c w m base w.tail).get id = (committedRows c w.hist w.tail).get id := by
  have hstart := h.start_le
  have hlen : (Baerly.slots w m.logSeqStart w.tail).length = w.tail - m.logSeqStart :=
    length_slots fun n hn hlt => (h.occupied hn).mpr hlt
  have hfold := fold_slice (c := c) (Baerly.slots w m.logSeqStart w.tail).length (Nat.le_refl _) hbase
    (fun i e hi => h.slots hi) id
  rw [List.take_length, hlen, show m.logSeqStart + (w.tail - m.logSeqStart) = w.tail by omega] at hfold
  exact hfold

/-- Of a collection that is not there yet a scan sees nothing. -/
theorem sees_unborn {state : QueryState} (hhist : w.hist = []) (hwire : Evaluable c w state.wire) :
    SeesAll c w state ⟨[], 0, none⟩ := by
  have hempty : ∀ id, (InsMap.empty : Rows).get id = (committedRows c w.hist w.tail).get id := by
    intro id
    rw [hhist, committedRows, List.take_nil]
    rfl
  obtain ⟨kept, hkept⟩ := hwire InsMap.empty hempty
  have hnamed : SelfNamed InsMap.empty := by
    intro id doc hget
    cases hget
  have hnone : kept = [] := (applyPredicate_perm hnamed hkept).eq_nil
  refine ⟨(congrArg List.length hhist).symm, InsMap.empty, kept, hempty, hkept, ?_⟩
  rw [hnone]
  exact (applyOrderLimit_nil state).symm

/-- **A scan gets through**, and sees all rows. -/
theorem can_runReadRows (h : Inv codec c w) (hnear : w.tail < w.hint + logForwardProbeCap)
    (why : Purpose)
    {state : QueryState} (hwire : Evaluable c w state.wire) :
    (deployed codec c).resolves t (runReadRows codec c why state)
      (fun res w' => SeesAll c w state res ∧ Recorded w w') w := by
  rcases h.unlocked with ⟨hcur, hhist, -⟩ | ⟨m, hclear⟩
  · have hread : (runReadRows codec c why state).eval w.standing = .ok ⟨[], 0, none⟩ := by
      show (((Task.ofExcept (.ok w.cur)).bind _).bind _).eval w.standing = _
      rw [hcur]
      rfl
    refine Machine.resolves_mono (resolves_read (reads_runReadRows why state) hread) ?_
    rintro _ w₁ ⟨rfl, hrec⟩
    exact ⟨sees_unborn hhist hwire, hrec⟩
  · obtain ⟨base, hsnap, hbase⟩ := h.loads hclear.cur
    have hwhole : Whole w m w.tail := ⟨hclear.hint_le, fun n hn hlt => (hclear.occupied hn).mpr hlt,
      fun n hn => hclear.free hn⟩
    have hget := hclear.foldedRows hbase
    obtain ⟨kept, hkept⟩ := hwire _ hget
    have hcap : w.tail < m.tailHint + logForwardProbeCap := by
      rw [← hclear.hint_eq]
      exact hnear
    have hread := eval_runReadRows (standing_still w) hclear.cur hclear.wf hsnap hwhole hcap why
      state hkept
    refine Machine.resolves_mono (resolves_read (reads_runReadRows why state) hread) ?_
    rintro _ w₁ ⟨rfl, hrec⟩
    exact ⟨⟨rfl, _, kept, hget, hkept, rfl⟩, hrec⟩

/-! ## The insert -/

/-- Every wire that names one document can be evaluated. -/
theorem evaluable_idWire (id : JsString) : Evaluable c w (some (idWire id)) :=
  fun docs _ => ⟨((docs.get id).map fun doc => (id, doc)).toList, rfl⟩

/-- What an insert's check finds: the row, if it is there. -/
theorem SeesAll.idWire {id : JsString} {res : ReadRows}
    (h : SeesAll c w ⟨some (idWire id), none, some 1⟩ res) :
    res.rows.head? = ((committedRows c w.hist w.tail).get id).map fun doc => (id, doc) := by
  obtain ⟨docs, kept, hget, hkept, hrows⟩ := h.rows
  have hone : applyPredicate (some (Baerly.idWire id)) docs =
      .ok ((docs.get id).map fun doc => (id, doc)).toList := rfl
  rw [hone] at hkept
  cases hkept
  rw [hrows, ← hget id]
  cases docs.get id with
  | none => rfl
  | some doc => rfl

/-- What an insert is not refused for before it looks at the bucket. -/
structure Insertable (ctx : InsertContext) (members : List (JsString × Doc)) (id : JsString)
    (mintedId : Option JsString) : Prop where
  nameOk : assertDocId ctx.writer.normalizeNfc id = .ok ()
  minted : (mintedId.any fun m => m ≠ id) = false
  valid : ctx.validate (.obj (spreadId members id)) = none

/-- The hint stays. -/
theorem Unmoved.hint (h : Unmoved w w') : w'.hint = w.hint := by
  unfold World.hint
  rw [h.cur]

/-- An input that could be committed still can. -/
theorem Admissible.unmoved {cfg : WriterConfig} {input : CommitInput} (h : Admissible cfg c input w)
    (hu : Unmoved w w') : Admissible cfg c input w' where
  checked := h.checked
  slotFits := by
    rw [hu.tail]
    exact h.slotFits
  markersFit := h.markersFit
  near := by
    rw [hu.tail, hu.hint]
    exact h.near
  guarded := by
    rw [hu.tail]
    exact h.guarded

/-- What happened since is no commit. -/
theorem AtTail.back {session ms : Nat} {input : CommitInput} {s : CommitSuccess} {w'' : World}
    (h : AtTail session ms input w' s w'') (hu : Unmoved w w') : AtTail session ms input w s w'' where
  fresh := h.fresh
  checked := h.checked
  entry := by
    rw [← hu.tail]
    exact h.entry
  hist := by
    rw [← hu.hist]
    exact h.hist

/-- How an insert of `id` ends that runs alone: a live row refuses or replays it, and otherwise it is
    committed at the tail. -/
def InsertEnds (c : Collection) (members : List (JsString × Doc)) (id : JsString)
    (mintedId : Option JsString) (session ms : Nat) (w : World)
    (r : Except Err (JsString × Option CommitSuccess)) (w' : World) : Prop :=
  (∀ live, (committedRows c w.hist w.tail).get id = some live → w'.hist = w.hist ∧
    ((mintedId.isSome ∧ insertReplaysRow (.obj (spreadId members id)) (some live)) →
      r = .ok (id, none)) ∧
    (¬ (mintedId.isSome ∧ insertReplaysRow (.obj (spreadId members id)) (some live)) →
      r = .error (insertAlreadyExists c.collectionName id))) ∧
  ((committedRows c w.hist w.tail).get id = none → ∃ s, r = .ok (id, some s) ∧
    AtTail session ms (insertInput c id (.obj (spreadId members id)) w.tail mintedId.isSome) w s w')

/-- **An insert gets through** a bucket whose invariant holds. -/
theorem can_insert {ctx : InsertContext} {members : List (JsString × Doc)} {uuidv7 : JsString}
    {mintedId : Option JsString} (session ms : Nat) (h : Inv codec c w)
    (hnear : w.tail < w.hint + logForwardProbeCap)
    (hok : Insertable ctx members (resolveId members uuidv7) mintedId)
    (hroom : ∀ folded, ctx.capacityRefusal folded (resolveId members uuidv7)
      (.obj (spreadId members (resolveId members uuidv7))) = none)
    (ha : Admissible ctx.writer c (insertInput c (resolveId members uuidv7)
      (.obj (spreadId members (resolveId members uuidv7))) w.tail mintedId.isSome) w) :
    (deployed codec c).can t (runInsertOutcome codec c session ctx members uuidv7 mintedId)
      (InsertEnds c members (resolveId members uuidv7) mintedId session ms w) w := by
  unfold runInsertOutcome
  generalize resolveId members uuidv7 = id at hok hroom ha ⊢
  dsimp only
  rw [hok.nameOk]
  show (deployed codec c).can t (if (mintedId.any fun m => m ≠ id) = true then _ else _) _ w
  rw [if_neg (by rw [hok.minted]; exact Bool.false_ne_true), hok.valid]
  show (deployed codec c).can t ((runReadRows codec c .check _).bind _) _ w
  refine Machine.can_seq (can_runReadRows h hnear .check (evaluable_idWire id)) ?_
  rintro existing w₁ ⟨hsees, hrec⟩
  have hu := hrec.unmoved
  rw [hsees.idWire]
  -- a live row under the id decides before anything is sent
  cases hget : (committedRows c w.hist w.tail).get id with
  | some live =>
    show (deployed codec c).can t
      (if mintedId.isSome ∧ insertReplaysRow _ (some live) then _ else _) _ w₁
    split
    next hsame => exact ⟨fun live' hlive => by
      cases hget.symm.trans hlive
      exact ⟨hu.hist, fun _ => rfl, fun hno => absurd hsame hno⟩, fun hnone => by
        rw [hget] at hnone
        cases hnone⟩
    next hdiffer => exact ⟨fun live' hlive => by
      cases hget.symm.trans hlive
      exact ⟨hu.hist, fun hyes => absurd hyes hdiffer, fun _ => rfl⟩, fun hnone => by
        rw [hget] at hnone
        cases hnone⟩
  | none =>
    have hfits : (existing.folded.bind fun folded => ctx.capacityRefusal folded id
        (.obj (spreadId members id))) = none := by
      cases existing.folded with
      | none => rfl
      | some folded => exact hroom folded
    dsimp only [Option.map_none]
    rw [hfits, hsees.tail]
    show (deployed codec c).can t ((commit ctx.writer c session _).bind _) _ w₁
    refine Machine.can_seq (can_commit session ms (h.unlocked.unmoved hu) (ha.unmoved hu)) ?_
    intro s w₂ hs
    refine ⟨fun live hlive => ?_, fun _ => ⟨s, rfl, hs.back hu⟩⟩
    rw [hget] at hlive
    cases hlive

/-! ## From every reachable state -/

variable {σ : State}

/-- **A commit gets through.**  Scheduled alone from any reachable state, it ends with its entry at
    what was the tail, and everybody else where they were. -/
theorem commit_alone (h : Reachable codec c σ) {cfg : WriterConfig} {input : CommitInput}
    (hunguarded : input.insertGuard = none) (ha : Admissible cfg c input σ.world) (ms : Nat) :
    (deployed codec c).CompletesAlone σ (.commit cfg input) (fun r w' =>
      ∃ s, r = .ok s ∧ AtTail σ.threads.length ms input σ.world s w') := by
  have hacc : deployedAccepts (.commit cfg input) σ.world = true := by
    show input.insertGuard.isNone = true
    rw [hunguarded]
    rfl
  exact Machine.completesAlone hacc (can_commit σ.threads.length ms h.inv.unlocked ha)

/-- What a scan that runs alone ends with: `docs` are the committed rows as it folded them, `kept` are
    those that match, and they come in the order and up to the limit it was asked for. -/
structure ScanEnds (c : Collection) (state : QueryState) (w : World) (r : Except Err ReadRows)
    (w' : World) (res : ReadRows) (docs : Rows) (kept : List StoredRow) : Prop where
  resolved : r = .ok res
  committed : ∀ id, docs.get id = (committedRows c w.hist w.tail).get id
  filtered : applyPredicate state.wire docs = .ok kept
  matching : kept.Perm (matchingRows c w.hist w.tail state.wire)
  rows : res.rows = applyOrderLimit state kept
  hist : w'.hist = w.hist

/-- **A scan gets through**, with every committed row that matches, in its order and up to its
    limit. -/
theorem scan_alone (h : Reachable codec c σ) (state : QueryState)
    (hnear : σ.world.tail < σ.world.hint + logForwardProbeCap)
    (hwire : Evaluable c σ.world state.wire) :
    (deployed codec c).CompletesAlone σ (.read state) (fun r w' =>
      ∃ res docs kept, ScanEnds c state σ.world r w' res docs kept) := by
  refine Machine.completesAlone rfl (Machine.can_mono (can_runReadRows h.inv hnear .scan hwire) ?_)
  rintro r w' ⟨res, rfl, hsees, hrec⟩
  obtain ⟨docs, kept, hget, hkept, hrows⟩ := hsees.rows
  have hnamed : SelfNamed docs := by
    intro id doc hd
    rw [hget id] at hd
    exact h.inv.selfNamed _ id doc hd
  refine ⟨res, docs, kept, rfl, hget, hkept, ?_, hrows, hrec.unmoved.hist⟩
  exact (applyPredicate_perm hnamed hkept).trans ((InsMap.perm_of_get_eq hget).filter _)

/-- **An insert gets through**: it is committed if its id is free, and otherwise told so. -/
theorem insert_alone (h : Reachable codec c σ) (ctx : InsertContext) (members : List (JsString × Doc))
    (uuidv7 : JsString) (mintedId : Option JsString)
    (hnear : σ.world.tail < σ.world.hint + logForwardProbeCap)
    (hok : Insertable ctx members (resolveId members uuidv7) mintedId)
    (hroom : ∀ folded, ctx.capacityRefusal folded (resolveId members uuidv7)
      (.obj (spreadId members (resolveId members uuidv7))) = none)
    (ha : Admissible ctx.writer c (insertInput c (resolveId members uuidv7)
      (.obj (spreadId members (resolveId members uuidv7))) σ.world.tail mintedId.isSome) σ.world)
    (ms : Nat) :
    (deployed codec c).CompletesAlone σ (.insert ctx members uuidv7 mintedId)
      (InsertEnds c members (resolveId members uuidv7) mintedId σ.threads.length ms σ.world) :=
  Machine.completesAlone rfl (can_insert σ.threads.length ms h.inv hnear hok hroom ha)

/-! ## After a crash -/

/-- Thread 0 commits `x` and crashes: its create landed, and it never hears of it. -/
def crashedCommit : List SampleAct :=
  provision ++ oks 0 1 ++ [.env (1 : Nat)]

/-- A commit that crashed after its create landed. -/
theorem reachable_crashedCommit : ∃ σ, Reachable sampleCodec sampleCollection σ ∧
    σ.world.tail = 1 ∧ σ.world.hint = 0 ∧ σ.threads.length = 1 := by
  have hrun : ((deployed sampleCodec sampleCollection).run State.init crashedCommit).map
      (fun σ => (σ.world.tail, σ.world.hint, σ.threads.length)) = some (1, 0, 1) := by
    decide +kernel
  obtain ⟨σ, hreach, hfacts⟩ := exists_reachable hrun
  simp only [Prod.mk.injEq] at hfacts
  exact ⟨σ, hreach, hfacts⟩

/-- The next commit is at slot 1. -/
theorem commit_alone_crashedCommit : ∃ σ, Reachable sampleCodec sampleCollection σ ∧
    (deployed sampleCodec sampleCollection).CompletesAlone σ (.commit sampleConfig (sampleInput "y"))
      (fun r w' => ∃ s, r = .ok s ∧ AtTail σ.threads.length 8 (sampleInput "y") σ.world s w') := by
  obtain ⟨σ, hreach, htail, hhint, -⟩ := reachable_crashedCommit
  refine ⟨σ, hreach, commit_alone hreach rfl ⟨by decide, ?_, fun h => (by cases h),
    fun _ => by omega, fun _ h => (by cases h)⟩ 8⟩
  rw [htail]
  decide

/-- A scan has the row of the call that crashed. -/
theorem scan_alone_crashedCommit : ∃ σ, Reachable sampleCodec sampleCollection σ ∧ σ.world.tail = 1 ∧
    (deployed sampleCodec sampleCollection).CompletesAlone σ (.read scanAll) (fun r w' =>
      ∃ res docs kept, ScanEnds sampleCollection scanAll σ.world r w' res docs kept) := by
  obtain ⟨σ, hreach, htail, hhint, -⟩ := reachable_crashedCommit
  refine ⟨σ, hreach, htail, scan_alone hreach scanAll ?_ fun docs _ => ⟨docs.entries, rfl⟩⟩
  rw [htail, hhint]
  decide

/-- An insert of the same id is refused. -/
theorem insert_alone_crashedCommit : ∃ σ, Reachable sampleCodec sampleCollection σ ∧
    (deployed sampleCodec sampleCollection).CompletesAlone σ insertX
      (InsertEnds sampleCollection [(js "_id", .str (js "x"))] (js "x") none σ.threads.length 8
        σ.world) := by
  obtain ⟨σ, hreach, htail, hhint, -⟩ := reachable_crashedCommit
  have hid : resolveId [(js "_id", .str (js "x"))] [] = js "x" := by decide
  have hdone := insert_alone hreach ⟨sampleConfig, fun _ => none, fun _ _ _ => none⟩
    [(js "_id", .str (js "x"))] [] none
  rw [hid] at hdone
  refine ⟨σ, hreach, hdone ?_ ⟨by decide, rfl, rfl⟩ (fun _ => rfl) ⟨?_, ?_, fun h => (by cases h),
    fun h => (by cases h), ?_⟩ 8⟩
  · rw [htail, hhint]
    decide
  · rw [htail]
    decide
  · rw [htail]
    decide
  · rintro guard hguard
    cases hguard
    rfl

end Baerly
