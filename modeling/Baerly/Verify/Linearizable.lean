import Baerly.Lib.Timeline
import Baerly.Verify.Commits
import Baerly.Verify.MarkerRuns
import Baerly.Verify.Reads

/-
  Commits and scans are linearizable.

  SPEC: one client making the calls one after the other, in an order that keeps real time, gets the
  answers they got and leaves the log they left.

  CRUX: the log is the order.  A commit stands where its entry is, which is no lower than the tail it
  started at and below the tail it came back at; a scan stands at the length of the prefix it saw.  The
  answers the calls decided on have to be what was committed: `double_commit`, `stale_read`.
-/

namespace Baerly

open Async

variable {codec : Codec} {c : Collection} {σ σ' : State} {w : World} {t u : Nat}

/-! ## Whose entry it is -/

/-- `e` is what the call commits. -/
def Call.Mints (c : Collection) (call : Call) (e : LogEntry) : Prop :=
  ∃ cfg input ms, call.Commits c cfg input ∧ e = mintEntry e.session ms input e.seq

/-- A request that creates no entries but those of the call. -/
def Creates (c : Collection) (call : Call) : Op → Prop
  | .send (.createLog _ e _) => call.Mints c e
  | _ => True

theorem creates_body {call : Call} : (body codec c t call).Asks (Creates c call) (fun _ => True) := by
  have hadmits : Admits (Creates c call) := by
    refine ⟨?_, fun _ _ => trivial, fun _ _ _ _ _ => trivial⟩
    intro op h
    cases op with
    | send r =>
      cases r with
      | createLog n e guarded => exact h.elim
      | _ => trivial
    | _ => trivial
  refine asks_body hadmits codec c fun cfg input hcommits _ =>
    ⟨fun _ _ _ _ _ => trivial, ?_, fun _ _ => trivial⟩
  exact fun ms seq guarded => ⟨cfg, input, ms, hcommits, rfl⟩

/-- Every create that was sent is one of its thread's call. -/
structure Minted (c : Collection) (σ : State) : Prop where
  asks : ∀ (t : Nat) (th : Thread World Op Resp Err Call Res), σ.threads[t]? = some th →
    th.Asks (Creates c)
  sent : ∀ m ∈ σ.world.net, ∀ n e guarded, m.req = .createLog n e guarded →
    ∃ th, σ.threads[m.owner]? = some th ∧ th.call.Mints c e

theorem minted_init : Minted c State.init where
  asks := by
    intro t th hth
    cases hth
  sent := fun m hm => absurd hm List.not_mem_nil

theorem Minted.next (h : Minted c σ) {a : Act (deployed codec c)}
    (hn : (deployed codec c).next σ a = some σ') : Minted c σ' := by
  have hkeep : ∀ {t : Nat} {e : LogEntry},
      (∃ th, σ.threads[t]? = some th ∧ th.call.Mints c e) →
      ∃ th, σ'.threads[t]? = some th ∧ th.call.Mints c e := by
    rintro t e ⟨⟨call, w₀, status⟩, hth, hmints⟩
    obtain ⟨status', hth'⟩ := Machine.next_thread hn hth
    exact ⟨_, hth', hmints⟩
  refine ⟨Machine.next_asks h.asks hn fun call _ => creates_body, ?_⟩
  cases a with
  | spawn call =>
    simp only [Machine.next] at hn
    split at hn
    next =>
      cases hn
      exact fun m hm n e guarded hreq => hkeep (h.sent m hm n e guarded hreq)
    next => cases hn
  | env i =>
    simp only [Machine.next, Option.map_eq_some_iff] at hn
    obtain ⟨w', hd, rfl⟩ := hn
    intro m' hm' n e guarded hreq
    obtain ⟨m, hm, howner, hsame, -⟩ := deliver_back (show deliver i σ.world = some w' from hd) hm'
    rw [howner]
    exact h.sent m hm n e guarded (hsame.symm.trans hreq)
  | step t pick =>
    obtain ⟨call, w₀, op, k, r, hth, hex, -⟩ := Machine.next_step hn
    obtain ⟨-, -, -, ⟨q, rfl, hw⟩ | hsame⟩ := exec_frame (show exec t op pick σ.world = _ from hex)
    · intro m hm n e guarded hreq
      rw [hw] at hm
      rcases List.mem_append.mp hm with hold | hnew
      · exact hkeep (h.sent m hold n e guarded hreq)
      · obtain rfl := List.mem_singleton.mp hnew
        have hcreates : Creates c call (.send q) := (h.asks t _ hth (.send q) k rfl).1
        obtain rfl : q = .createLog n e guarded := hreq
        exact hkeep ⟨_, hth, hcreates⟩
    · intro m' hm' n e guarded hreq
      obtain ⟨m, hm, howner, hreq', -⟩ := hsame.back m' hm'
      rw [howner]
      exact hkeep (h.sent m hm n e guarded (hreq'.symm.trans hreq))

theorem Minted.run {acts : List (Act (deployed codec c))} (h : Minted c σ)
    (hr : (deployed codec c).run σ acts = some σ') : Minted c σ' := by
  induction acts generalizing σ with
  | nil =>
    cases hr
    exact h
  | cons a acts ih =>
    simp only [Machine.run, Option.bind_eq_some_iff] at hr
    obtain ⟨ρ, hn, hr⟩ := hr
    exact ih (h.next hn) hr

/-- Everything that is committed was committed by a call. -/
theorem Minted.committed (h : Minted c σ) (hinv : Inv codec c σ.world) {n : Nat} {e : LogEntry}
    (hn : σ.world.hist[n]? = some e) :
    ∃ th, σ.threads[e.session]? = some th ∧ th.call.Mints c e := by
  obtain ⟨m, hm, guarded, hreq, -, howner⟩ := hinv.committed n e hn
  rw [← howner]
  exact h.sent m hm n e guarded hreq

/-! ## The calls as those of one client -/

/-- How a call whose entry is `e` may have ended, if it has: with `e`, or with an error that leaves its
    fate open. -/
def EndsWith (th : Thread World Op Resp Err Call Res) (e : LogEntry) : Prop :=
  ∀ r w, th.status = .done r w →
    (∃ s, commitOutcome th.call r = some (.ok s) ∧ s.replayed = false ∧ s.entry = e) ∨
      ∃ err, r = .error err ∧ err.fateOpen = true

/-- The call of thread `t`, made when `s` is committed. -/
inductive Performs (c : Collection) (σ : State) (t : Nat) (s : List LogEntry) :
    List LogEntry → Prop where
  /-- A scan returns the rows of everything that is committed. -/
  | scan {state : QueryState} {start w : World} {res : ReadRows} {rows : List StoredRow}
      (thread : σ.threads[t]? = some ⟨.read state, start, .done (.ok res) w⟩)
      (all : rows.Perm (matchingRows c s s.length state.wire))
      (found : res.rows = takeLimit state.limit rows) : Performs c σ t s s
  /-- A commit adds its entry. -/
  | commit {th : Thread World Op Resp Err Call Res} {e : LogEntry}
      (thread : σ.threads[t]? = some th) (mints : th.call.Mints c e) (session : e.session = t)
      (seq : e.seq = s.length) (ends : EndsWith th e) : Performs c σ t s (s ++ [e])

/-- The scan of thread `t` resolved. -/
def Scanned (σ : State) (t : Nat) : Prop :=
  ∃ state start res w, σ.threads[t]? = some ⟨.read state, start, .done (.ok res) w⟩

/-- Thread `t` resolved with a fresh commit. -/
def Committed (σ : State) (t : Nat) : Prop :=
  ∃ th r w s, σ.threads[t]? = some th ∧ th.status = .done r w ∧
    commitOutcome th.call r = some (.ok s) ∧ s.replayed = false

/-- The call of thread `t` had resolved when thread `u` was not there yet. -/
def Precedes (codec : Codec) (c : Collection) (acts : List (Act (deployed codec c))) (t u : Nat) :
    Prop :=
  ∃ as bs ρ, acts = as ++ bs ∧ (deployed codec c).run State.init as = some ρ ∧
    (Scanned ρ t ∨ Committed ρ t) ∧ ρ.threads.length ≤ u

/-- What every call of the run decided on was what is committed. -/
structure Faithful (σ : State) : Prop where
  readbacks : ∀ t, Genuine t σ.world
  scans : ∀ t, Exact .scan t σ.world
  /-- Every fresh commit had its floor check. -/
  checks : ∀ (t : Nat) (th : Thread World Op Resp Err Call Res) r w s, σ.threads[t]? = some th →
    th.status = .done r w → commitOutcome th.call r = some (.ok s) → s.replayed = false →
    s.floorChecked = true

/-- The scan of thread `t`, if that is one, saw the first `n` entries. -/
def Sees (c : Collection) (σ : State) (t n : Nat) : Prop :=
  ∀ state start res w₁, σ.threads[t]? = some ⟨.read state, start, .done (.ok res) w₁⟩ →
    start.tail ≤ n ∧ n ≤ w₁.tail ∧ w₁.tail ≤ σ.world.tail ∧
      ∃ rows, rows.Perm (matchingRows c σ.world.hist n state.wire) ∧
        res.rows = takeLimit state.limit rows

section Run

variable {acts : List (Act (deployed codec c))}
variable (hr : (deployed codec c).run State.init acts = some σ)

include hr

/-- How a thread started: in a reachable world, with nothing sent or read under its id. -/
theorem started {th : Thread World Op Resp Err Call Res} (hth : σ.threads[t]? = some th) :
    Inv codec c th.start ∧ Fresh t th.start ∧ Evolves th.start σ.world := by
  obtain ⟨bs, cs, ρ, -, hbs, hlen, hworld, hcs⟩ := Machine.run_spawned hr (Nat.zero_le t) hth
  have hreach : Reachable codec c ρ := ⟨bs, hbs⟩
  rw [← hworld]
  exact ⟨hreach.inv, hreach.poolOk.fresh t (Nat.le_of_eq hlen), hreach.evolves hcs⟩

/-- A thread's entry is above everything that was committed when it started. -/
theorem start_le {th : Thread World Op Resp Err Call Res} (hth : σ.threads[t]? = some th) {n : Nat}
    {e : LogEntry} (hn : σ.world.hist[n]? = some e) (hsession : e.session = t) :
    th.start.tail ≤ n := by
  obtain ⟨hinv, hfresh, hev⟩ := started hr hth
  by_contra hlt
  obtain ⟨x, hx⟩ : ∃ x, th.start.hist[n]? = some x :=
    ⟨_, List.getElem?_eq_getElem (Nat.lt_of_not_le hlt)⟩
  have hsame := hev.hist_get hx
  rw [hn] at hsame
  cases hsame
  exact hfresh.allDead.absent hinv hx hsession

/-- Where a fresh commit is. -/
theorem committed_at (htrue : Faithful σ) {th : Thread World Op Resp Err Call Res}
    {r : Except Err (Res th.call)} {w₁ : World} {s : CommitSuccess} (hth : σ.threads[t]? = some th)
    (hstatus : th.status = .done r w₁) (ho : commitOutcome th.call r = some (.ok s))
    (hfresh : s.replayed = false) :
    w₁.hist[s.entry.seq]? = some s.entry ∧ σ.world.hist[s.entry.seq]? = some s.entry ∧
      s.entry.session = t := by
  have hreach : Reachable codec c σ := ⟨acts, hr⟩
  have hchecked := htrue.checks t th r w₁ s hth hstatus ho hfresh
  obtain ⟨call, start, status⟩ := th
  rw [show status = .done r w₁ from hstatus] at hth
  obtain ⟨hpost, hrely⟩ := hreach.done hth
  obtain ⟨hhist, hsession, -⟩ := (commitPost_of_post hpost ho).fresh hfresh hchecked
  exact ⟨hhist, hrely.evolves.hist_get hhist, hsession⟩

/-- What comes first ended below where the other started. -/
theorem Precedes.tail (h : Precedes codec c acts t u) {thu : Thread World Op Resp Err Call Res}
    (hthu : σ.threads[u]? = some thu) :
    ∃ th r w₁, σ.threads[t]? = some th ∧ th.status = .done r w₁ ∧ w₁.tail ≤ thu.start.tail ∧ t < u := by
  obtain ⟨as, bs, ρ, rfl, has, hback, hu⟩ := h
  obtain ⟨ρ', hρ, hbs⟩ := (Machine.run_append _).mp hr
  rw [has] at hρ
  cases hρ
  have hreach : Reachable codec c ρ := ⟨as, has⟩
  obtain ⟨⟨call, start, status⟩, r, w₁, hth, hstatus⟩ :
      ∃ th r w₁, ρ.threads[t]? = some th ∧ th.status = .done r w₁ := by
    rcases hback with ⟨state, start, res, w₁, hth⟩ | ⟨th, r, w₁, s, hth, hstatus, -⟩
    · exact ⟨_, .ok res, w₁, hth, rfl⟩
    · exact ⟨th, r, w₁, hth, hstatus⟩
  rw [show status = .done r w₁ from hstatus] at hth
  obtain ⟨bs', cs, ρ', -, hbs', -, hworld, -⟩ := Machine.run_spawned hbs hu hthu
  refine ⟨⟨call, start, .done r w₁⟩, r, w₁, Machine.run_done _ hbs hth, rfl, ?_, ?_⟩
  · rw [← hworld]
    exact (hreach.done hth).2.evolves.tail.trans (hreach.evolves hbs').tail
  · exact Nat.lt_of_lt_of_le (List.getElem?_eq_some_iff.mp hth).1 hu

/-- Who comes first keeps its answer. -/
theorem Precedes.back (h : Precedes codec c acts t u) : Scanned σ t ∨ Committed σ t := by
  obtain ⟨as, bs, ρ, rfl, has, hback, -⟩ := h
  obtain ⟨ρ', hρ, hbs⟩ := (Machine.run_append _).mp hr
  rw [has] at hρ
  cases hρ
  rcases hback with ⟨state, start, res, w₁, hth⟩ | ⟨⟨call, start, status⟩, r, w₁, s, hth, hstatus, ho⟩
  · exact Or.inl ⟨state, start, res, w₁, Machine.run_done _ hbs hth⟩
  · rw [show status = .done r w₁ from hstatus] at hth
    exact Or.inr ⟨⟨call, start, .done r w₁⟩, r, w₁, s, Machine.run_done _ hbs hth, rfl, ho⟩

omit hr in
/-- A call whose creates are all dead has no entry. -/
theorem Reachable.absent (h : Reachable codec c σ) {call : Call} {start w₁ : World}
    {r : Except Err (Res call)} (hth : σ.threads[t]? = some ⟨call, start, .done r w₁⟩)
    (hdead : AllDead t w₁) {n : Nat} {e : LogEntry} (hn : σ.world.hist[n]? = some e) :
    e.session ≠ t :=
  (hdead.calm (h.done hth).2.quiet.toCalm).absent h.inv hn

/-- A call that committed comes back with its entry, or with an error that leaves its fate open. -/
theorem ends_with (htrue : Faithful σ) {th : Thread World Op Resp Err Call Res}
    (hth : σ.threads[t]? = some th) {n : Nat} {e : LogEntry} (hmints : th.call.Mints c e)
    (hn : σ.world.hist[n]? = some e) (hsession : e.session = t) : EndsWith th e := by
  intro r w₁ hstatus
  have hreach : Reachable codec c σ := ⟨acts, hr⟩
  have hat := fun s ho hfresh => committed_at hr htrue (s := s) hth hstatus ho hfresh
  have hgen := htrue.readbacks t
  obtain ⟨call, start, status⟩ := th
  rw [show status = .done r w₁ from hstatus] at hth
  obtain ⟨hpost, hrely⟩ := hreach.done hth
  -- its entry stands in the log, so not every create of the thread died
  have hlive : ¬ AllDead t w₁ := fun hdead => hreach.absent hth hdead hn hsession
  have hfate : ∀ {o : Except Err CommitSuccess}, commitOutcome call r = some o →
      (∃ s, o = .ok s ∧ s.replayed = false ∧ s.entry = e) ∨
        ∃ err, o = .error err ∧ err.fateOpen = true := by
    intro o ho
    have hcommit := commitPost_of_post hpost ho
    cases o with
    | ok s =>
      refine Or.inl ⟨s, rfl, ?_⟩
      cases hre : s.replayed with
      | true =>
        have hdead : Genuine t w₁ → AllDead t w₁ := by
          simpa only [CommitPost, hre, if_true] using hcommit
        exact absurd (hdead (hrely.evolves.genuine hgen)) hlive
      | false =>
        obtain ⟨-, hhist, howner⟩ := hat s ho hre
        -- the thread won one slot only, and that is where the entry stands
        have hslot := hreach.inv.atMostOnce hgen _ _ _ _ hhist hn howner hsession
        rw [hslot, hn] at hhist
        cases hhist
        exact ⟨rfl, rfl⟩
    | error err =>
      refine Or.inr ⟨err, rfl, ?_⟩
      cases hopen : err.fateOpen with
      | true => rfl
      | false => exact absurd (hcommit hopen (hrely.evolves.genuine hgen)) hlive
  -- a commit answers with its outcome; an insert wraps it
  obtain ⟨cfg, input, ms, hcommits, -⟩ := hmints
  cases hcommits with
  | commit =>
    rcases hfate rfl with ⟨s, rfl, hs⟩ | ⟨err, rfl, hopen⟩
    · exact Or.inl ⟨s, rfl, hs⟩
    · exact Or.inr ⟨err, rfl, hopen⟩
  | insert =>
    cases r with
    | error err =>
      rcases hfate rfl with ⟨s, hs, -⟩ | ⟨err', herr, hopen⟩
      · cases hs
      · cases herr
        exact Or.inr ⟨err, rfl, hopen⟩
    | ok res =>
      obtain ⟨id, success⟩ := res
      cases success with
      | none => exact absurd hpost hlive
      | some s =>
        rcases hfate rfl with ⟨s', hs', hs⟩ | ⟨err, herr, -⟩
        · cases hs'
          exact Or.inl ⟨s, rfl, hs⟩
        · cases herr

/-- Every scan saw a prefix. -/
theorem exists_sees (htrue : Faithful σ) (t : Nat) : ∃ n, Sees c σ t n := by
  have hreach : Reachable codec c σ := ⟨acts, hr⟩
  by_cases hscan : Scanned σ t
  · obtain ⟨state, start, res, w₁, hth⟩ := hscan
    obtain ⟨hpost, hrely⟩ := hreach.done hth
    obtain ⟨n, hlo, hhi, rows, hperm, hrows⟩ :=
      hpost res rfl ((htrue.scans t).back hrely.evolves)
    refine ⟨n, fun state' start' res' w' hth' => ?_⟩
    rw [hth] at hth'
    cases hth'
    refine ⟨hlo, hhi, hrely.evolves.tail, rows, ?_, hrows⟩
    unfold matchingRows at hperm ⊢
    rw [hrely.evolves.committedRows hhi]
    exact hperm
  · exact ⟨0, fun state start res w₁ hth => absurd ⟨state, start, res, w₁, hth⟩ hscan⟩

end Run

/-! ## The order -/

section Order

open Classical in
/-- The log, who committed its entries, and the scans with what they saw. -/
noncomputable def timeline (σ : State) (seen : Nat → Nat) : Timeline Nat LogEntry where
  log := σ.world.hist
  appender := fun n => (σ.world.hist[n]?.map (·.session)).getD 0
  readers := (List.range σ.threads.length).filter (Scanned σ)
  seen := seen

variable {seen : Nat → Nat}

theorem appender_eq {n : Nat} {e : LogEntry} (hn : σ.world.hist[n]? = some e) :
    (timeline σ seen).appender n = e.session := by
  simp only [timeline, hn, Option.map_some, Option.getD_some]

theorem mem_readers : t ∈ (timeline σ seen).readers ↔ Scanned σ t := by
  simp only [timeline, List.mem_filter, List.mem_range, decide_eq_true_eq]
  refine ⟨And.right, fun h => ⟨?_, h⟩⟩
  obtain ⟨state, start, res, w₁, hth⟩ := h
  exact (List.getElem?_eq_some_iff.mp hth).1

theorem pairwise_readers : (timeline σ seen).readers.Pairwise (· < ·) :=
  List.pairwise_lt_range.filter _

theorem Call.Mints.not_scanned {th : Thread World Op Resp Err Call Res} {e : LogEntry}
    (h : th.call.Mints c e) (hth : σ.threads[t]? = some th) : ¬ Scanned σ t := by
  rintro ⟨state, start, res, w₁, hth'⟩
  rw [hth] at hth'
  cases hth'
  obtain ⟨cfg, input, ms, hcommits, -⟩ := h
  cases hcommits

variable {acts : List (Act (deployed codec c))}
variable (hr : (deployed codec c).run State.init acts = some σ)

include hr

/-- Who committed an entry. -/
theorem exists_appender {n : Nat} (hn : n < (timeline σ seen).log.length) :
    ∃ e th, σ.world.hist[n]? = some e ∧ (timeline σ seen).appender n = e.session ∧
      σ.threads[e.session]? = some th ∧ th.call.Mints c e ∧ th.start.tail ≤ n := by
  have hreach : Reachable codec c σ := ⟨acts, hr⟩
  obtain ⟨e, hget⟩ : ∃ e, σ.world.hist[n]? = some e := ⟨_, List.getElem?_eq_getElem hn⟩
  obtain ⟨th, hth, hmints⟩ := (minted_init.run hr).committed hreach.inv hget
  exact ⟨e, th, hget, appender_eq hget, hth, hmints, start_le hr hth hget rfl⟩

/-- A commit that comes first is below where the other started. -/
theorem Precedes.appended (htrue : Faithful σ) {n : Nat} (hn : n < (timeline σ seen).log.length)
    (h : Precedes codec c acts ((timeline σ seen).appender n) u)
    {thu : Thread World Op Resp Err Call Res} (hthu : σ.threads[u]? = some thu) :
    n < thu.start.tail := by
  have hreach : Reachable codec c σ := ⟨acts, hr⟩
  obtain ⟨e, th, hget, happ, hth, hmints, -⟩ := @exists_appender codec c σ seen acts hr n hn
  rw [happ] at h
  obtain ⟨th', r, w₁, hth', hstatus, hle, -⟩ := h.tail hr hthu
  rcases h.back hr with hscan | ⟨th'', r', w', s, hth'', hstatus', ho, hfresh⟩
  · exact absurd hscan (hmints.not_scanned hth)
  · obtain ⟨hw, hhist, hsession⟩ := committed_at hr htrue hth'' hstatus' ho hfresh
    have hslot := hreach.inv.atMostOnce (htrue.readbacks _) _ _ _ _ hhist hget hsession rfl
    rw [hth'] at hth''
    cases hth''
    rw [hstatus] at hstatus'
    cases hstatus'
    have hlt : s.entry.seq < w₁.tail := (List.getElem?_eq_some_iff.mp hw).1
    omega

/-- A scan that comes first saw no more than what was there when the other started. -/
theorem Precedes.scanned (hseen : ∀ t, Sees c σ t (seen t)) (hscan : Scanned σ t)
    (h : Precedes codec c acts t u) {thu : Thread World Op Resp Err Call Res}
    (hthu : σ.threads[u]? = some thu) : seen t ≤ thu.start.tail := by
  obtain ⟨th, r, w₁, hth, hstatus, hle, -⟩ := h.tail hr hthu
  obtain ⟨state, start, res, w₂, hth'⟩ := hscan
  rw [hth'] at hth
  cases hth
  cases hstatus
  exact (hseen t state start res w₁ hth').2.1.trans hle

/-- The positions agree with real time. -/
theorem timeline_agrees (htrue : Faithful σ) (hseen : ∀ t, Sees c σ t (seen t)) :
    (timeline σ seen).Agrees (Precedes codec c acts) where
  seen_le := by
    intro t ht
    obtain ⟨state, start, res, w₁, hth⟩ := mem_readers.mp ht
    obtain ⟨-, hle, hend, -⟩ := hseen t state start res w₁ hth
    exact hle.trans hend
  nodup := pairwise_readers.imp fun hlt => Nat.ne_of_lt hlt
  once := by
    intro i j hi hj heq
    have hreach : Reachable codec c σ := ⟨acts, hr⟩
    obtain ⟨e, th, hget, happ, -⟩ := @exists_appender codec c σ seen acts hr i hi
    obtain ⟨e', th', hget', happ', -⟩ := @exists_appender codec c σ seen acts hr j hj
    rw [happ, happ'] at heq
    exact hreach.inv.atMostOnce (htrue.readbacks _) _ _ _ _ hget hget' heq rfl
  apart := by
    intro i hi hmem
    obtain ⟨e, th, -, happ, hth, hmints, -⟩ := @exists_appender codec c σ seen acts hr i hi
    rw [happ] at hmem
    exact hmints.not_scanned hth (mem_readers.mp hmem)
  appends := by
    intro i j hi hj hbefore
    obtain ⟨e, th, -, happ, hth, -, hstart⟩ := @exists_appender codec c σ seen acts hr j hj
    rw [happ] at hbefore
    exact (hbefore.appended hr htrue hi hth).trans_le hstart
  sees := by
    intro i t hi ht hbefore
    obtain ⟨state, start, res, w₁, hth⟩ := mem_readers.mp ht
    exact (hbefore.appended hr htrue hi hth).trans_le (hseen t state start res w₁ hth).1
  misses := by
    intro t j ht hj hbefore
    obtain ⟨e, th, -, happ, hth, -, hstart⟩ := @exists_appender codec c σ seen acts hr j hj
    rw [happ] at hbefore
    exact (hbefore.scanned hr hseen (mem_readers.mp ht) hth).trans hstart
  reads := by
    intro t u ht hu hbefore
    obtain ⟨state, start, res, w₁, hth⟩ := mem_readers.mp hu
    exact (hbefore.scanned hr hseen (mem_readers.mp ht) hth).trans (hseen u state start res w₁ hth).1
  sorted := by
    refine pairwise_readers.imp_of_mem ?_
    intro t u ht _ hlt hbefore
    obtain ⟨state, start, res, w₁, hth⟩ := mem_readers.mp ht
    obtain ⟨-, -, -, -, -, -, hgt⟩ := hbefore.tail hr hth
    exact Nat.lt_asymm hlt hgt

/-- Everything that came back has its place in the order. -/
theorem back_mem_order (htrue : Faithful σ) (hagrees : (timeline σ seen).Agrees (Precedes codec c acts))
    (hback : Scanned σ t ∨ Committed σ t) : t ∈ (timeline σ seen).order := by
  rw [hagrees.mem_order]
  rcases hback with hscan | ⟨th, r, w₁, s, hth, hstatus, ho, hfresh⟩
  · exact Or.inl (mem_readers.mpr hscan)
  · obtain ⟨-, hhist, hsession⟩ := committed_at hr htrue hth hstatus ho hfresh
    exact Or.inr ⟨s.entry.seq, (List.getElem?_eq_some_iff.mp hhist).1,
      by rw [appender_eq hhist, hsession]⟩

omit hr in
/-- The rows of a prefix are those of the log that ends there. -/
theorem matchingRows_take {hist : List LogEntry} {n : Nat} (hn : n ≤ hist.length)
    (wire : Option PredicateWire) :
    matchingRows c (hist.take n) (hist.take n).length wire = matchingRows c hist n wire := by
  unfold matchingRows committedRows
  rw [List.length_take, Nat.min_eq_left hn, List.take_take, Nat.min_self]

/-- In this order the calls are those of one client. -/
theorem order_performs (htrue : Faithful σ) (hseen : ∀ t, Sees c σ t (seen t)) :
    Runs (Performs c σ) (timeline σ seen).order [] σ.world.hist := by
  have hreach : Reachable codec c σ := ⟨acts, hr⟩
  refine Timeline.runs ?_ ?_
  · intro t ht
    obtain ⟨state, start, res, w₁, hth⟩ := mem_readers.mp ht
    obtain ⟨-, hle, hend, rows, hperm, hrows⟩ := hseen t state start res w₁ hth
    refine .scan hth ?_ hrows
    have hsame := matchingRows_take (c := c) (hle.trans hend) state.wire
    exact hsame ▸ hperm
  · intro n e hn
    have hn' : σ.world.hist[n]? = some e := hn
    have hlt : n < σ.world.hist.length := (List.getElem?_eq_some_iff.mp hn').1
    obtain ⟨th, hth, hmints⟩ := (minted_init.run hr).committed hreach.inv hn'
    rw [appender_eq hn']
    refine .commit hth hmints rfl ?_ (ends_with hr htrue hth hmints hn' rfl)
    obtain ⟨m, hm, guarded, hreq, -, -⟩ := hreach.inv.committed n e hn'
    have hcreate := (hreach.inv.msgs m hm).req
    rw [hreq] at hcreate
    rw [hcreate.entry.seq]
    exact (List.length_take_of_le hlt.le).symm

end Order

/-- **Commits and scans are linearizable.**  In every run whose calls decided on what is committed,
    some order of the resolved scans and of the calls that committed is a run of one client: every
    scan returns all rows there are when its turn comes, every commit adds its own entry and came
    back with it, still runs, or ended with an error that leaves its fate open, the log they leave is
    the committed sequence, and no call stands before one that had resolved when it started. -/
theorem collection_linearizable {acts : List (Act (deployed codec c))}
    (hr : (deployed codec c).run State.init acts = some σ) (htrue : Faithful σ) :
    ∃ order : List Nat, order.Nodup ∧
      (∀ t, Scanned σ t ∨ Committed σ t → t ∈ order) ∧
      Runs (Performs c σ) order [] σ.world.hist ∧
      order.Pairwise fun t u => ¬ Precedes codec c acts u t := by
  choose seen hseen using exists_sees hr htrue
  have hagrees := timeline_agrees hr htrue hseen
  exact ⟨(timeline σ seen).order, hagrees.nodup_order, fun t => back_mem_order hr htrue hagrees,
    order_performs hr htrue hseen, hagrees.respects⟩

/-! ### A race and a scan -/

/-- The read is good for `Faithful`. -/
def Event.faithful : Event → Bool
  | .readLog _ (.occupant _) _ (some e) k => k = some e
  | .readLog _ .scan _ v k => v = k
  | _ => true

/-- A fresh commit of the thread had its floor check. -/
def hadCheck (th : Thread World Op Resp Err Call Res) : Bool :=
  match th.status with
  | .done r _ =>
    match commitOutcome th.call r with
    | some (.ok s) => s.replayed || s.floorChecked
    | _ => true
  | .waiting _ _ => true

theorem faithful_of_all (htrace : σ.world.trace.all Event.faithful = true)
    (hthreads : σ.threads.all hadCheck = true) : Faithful σ where
  readbacks := by
    intro t guarded n e k hmem
    have hev := List.all_eq_true.mp htrace _ hmem
    simpa [Event.faithful] using hev
  scans := by
    intro t n v k hmem
    have hev := List.all_eq_true.mp htrace _ hmem
    simpa [Event.faithful] using hev
  checks := by
    intro t th r w₁ s hth hstatus ho hfresh
    have hcheck := List.all_eq_true.mp hthreads th (List.mem_of_getElem? hth)
    simpa [hadCheck, hstatus, ho, hfresh] using hcheck

/-- Thread 1 takes slot 0 from thread 0, which goes on to slot 1; then thread 2 scans. -/
def raceThenScan : List SampleAct :=
  raceForSlot ++ [.spawn (.read scanAll)] ++ oks 2 4

theorem linearizable_raceThenScan : ∃ σ,
    (deployed sampleCodec sampleCollection).run State.init raceThenScan = some σ ∧
      Scanned σ 2 ∧ ∃ order : List Nat, order.Nodup ∧
        (∀ t, Scanned σ t ∨ Committed σ t → t ∈ order) ∧
        Runs (Performs sampleCollection σ) order [] σ.world.hist ∧
        order.Pairwise fun t u => ¬ Precedes sampleCodec sampleCollection raceThenScan u t := by
  have hrun : ((deployed sampleCodec sampleCollection).run State.init raceThenScan).map
      (fun σ => (σ.world.trace.all Event.faithful, σ.threads.all hadCheck, (readOf 2 σ).isSome)) =
        some (true, true, true) := by
    decide +kernel
  obtain ⟨σ, hσ, hfacts⟩ := Option.map_eq_some_iff.mp hrun
  simp only [Prod.mk.injEq, Option.isSome_iff_exists] at hfacts
  obtain ⟨htrace, hthreads, ⟨state, start, res, w₁⟩, hread⟩ := hfacts
  exact ⟨σ, hσ, ⟨state, start, res, w₁, readOf_eq hread⟩,
    collection_linearizable hσ (faithful_of_all htrace hthreads)⟩

end Baerly
