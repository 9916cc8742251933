import Baerly.Verify.Safety

/-
  What one commit, and one insert, may leave in the committed sequence.

  SPEC: a commit lands at most once; a fresh one whose floor check ran landed exactly once, where
  it says; a definite rejection never lands.  An insert never replaces a live row.

  CRUX: both hold in every run in which the log objects the call DECIDED ON were the entries
  committed at their slots.  A retired slot can be filled again by a create that was sent long ago
  (`phantom`), and the readback of a lost slot takes such an object for the winner: then the slot
  may have been won by this very call (`double_commit`), or by another insert of the same document
  (`double_insert`).
-/

namespace Baerly

open Async

variable {codec : Codec} {c : Collection} {σ σ' : State} {w : World} {t : Nat}

/-! ## Sessions in the committed sequence -/

/-- An entry of a session was created by a message that is not dead. -/
theorem Inv.alive (h : Inv codec c w) {n : Nat} {e : LogEntry} (hn : w.hist[n]? = some e) :
    ∃ (i : Nat) (m : Msg), w.net[i]? = some m ∧ m.owner = e.session ∧
      m.req.isCreateLog = true ∧ ¬ Dead w m ∧ ∃ guarded, m.req = .createLog n e guarded := by
  obtain ⟨m, hm, guarded, hreq, happ, hown⟩ := h.committed n e hn
  obtain ⟨i, hi⟩ := List.getElem?_of_mem hm
  refine ⟨i, m, hi, hown, by rw [hreq]; rfl, ?_, guarded, hreq⟩
  rintro (⟨_, hnot⟩ | ⟨n', e', guarded', x, hreq', hx, hne⟩)
  · rw [happ] at hnot
    cases hnot
  · rw [hreq] at hreq'
    cases hreq'
    rw [hn] at hx
    cases hx
    exact hne rfl

/-- A thread whose creates are all dead has no entry in the committed sequence. -/
theorem AllDead.absent (h : AllDead t w) (hinv : Inv codec c w) {n : Nat} {e : LogEntry}
    (hn : w.hist[n]? = some e) : e.session ≠ t := by
  intro hs
  obtain ⟨i, m, hi, hown, hcr, halive, _⟩ := hinv.alive hn
  exact halive (h m (List.mem_of_getElem? hi) (hown.trans hs) hcr)

/-- At most one slot of the committed sequence carries session `t`. -/
def AtMostOnce (t : Nat) (w : World) : Prop :=
  ∀ (i j : Nat) (e e' : LogEntry), w.hist[i]? = some e → w.hist[j]? = some e' →
    e.session = t → e'.session = t → i = j

/-- A thread whose readbacks were genuine has at most one. -/
theorem Inv.atMostOnce (h : Inv codec c w) (hgen : Genuine t w) : AtMostOnce t w := by
  intro i j e e' hi hj he he'
  obtain ⟨p, m, hp, hown, hcr, halive, g, hreq⟩ := h.alive hi
  obtain ⟨q, m', hq, hown', hcr', halive', g', hreq'⟩ := h.alive hj
  rw [he] at hown
  rw [he'] at hown'
  rcases Nat.lt_trichotomy p q with hlt | heq | hgt
  · exact absurd (h.serial p q m m' hlt hp hq (hown'.trans hown.symm) hcr hcr'
      (by rw [hown]; exact hgen)) halive
  · subst heq
    rw [hp] at hq
    cases hq
    rw [hreq] at hreq'
    cases hreq'
    rfl
  · exact absurd (h.serial q p m' m hgt hq hp (hown.trans hown'.symm) hcr' hcr
      (by rw [hown']; exact hgen)) halive'

/-! ## Exactly once -/

/-- How the `Writer.commit` of a finished call ended, if it made one. -/
def commitOutcome : (call : Call) → Except Err (Res call) → Option (Except Err CommitSuccess)
  | .commit _ _, r => some r
  | .insert _ _ _ _, .ok (_, success) => success.map .ok
  | .insert _ _ _ _, .error e => some (.error e)
  | _, _ => none

/-- What a finished call owes as a commit. -/
theorem commitPost_of_post {call : Call} {start : World} {r : Except Err (Res call)}
    {o : Except Err CommitSuccess} (h : post codec c t call start r w)
    (ho : commitOutcome call r = some o) : CommitPost t o w := by
  cases call with
  | commit cfg input =>
    cases ho
    exact h
  | insert ctx members uuidv7 mintedId =>
    cases r with
    | error e =>
      cases ho
      exact h
    | ok res =>
      obtain ⟨id, success⟩ := res
      cases success with
      | none => cases ho
      | some s =>
        cases ho
        exact h.1
  | _ => cases ho

theorem CommitPost.fresh {s : CommitSuccess} (h : CommitPost t (.ok s) w)
    (hfresh : s.replayed = false) (hchecked : s.floorChecked = true) :
    w.hist[s.entry.seq]? = some s.entry ∧ s.entry.session = t ∧
      ∃ json tail, Event.readCurrent t (some json) tail ∈ w.trace ∧
        certifiedDeleteFloor json ≤ s.entry.seq := by
  have h' : if s.replayed = true then Genuine t w → AllDead t w
      else s.floorChecked = true → _ := h
  rw [hfresh] at h'
  exact h' hchecked

/-- **Exactly once**, for a call none of whose slot readbacks returned a phantom. -/
theorem commit_exactly_once (h : Reachable codec c σ) (hgen : Genuine t σ.world) :
    AtMostOnce t σ.world ∧
    ∀ th, σ.threads[t]? = some th → ∀ r w₁, th.status = .done r w₁ →
      ∀ o, commitOutcome th.call r = some o →
        (∀ s, o = .ok s → s.replayed = false → s.floorChecked = true →
          σ.world.hist[s.entry.seq]? = some s.entry ∧ s.entry.session = t ∧
          ∃ json tail, Event.readCurrent t (some json) tail ∈ σ.world.trace ∧
            certifiedDeleteFloor json ≤ s.entry.seq) ∧
        (∀ e, o = .error e → e.fateOpen = false →
          ∀ (acts : List (Act (deployed codec c))) σ', (deployed codec c).run σ acts = some σ' →
            ∀ (n : Nat) (x : LogEntry), σ'.world.hist[n]? = some x → x.session ≠ t) := by
  refine ⟨h.inv.atMostOnce hgen, ?_⟩
  intro th
  obtain ⟨call, start, status⟩ := th
  intro hth r w₁ hstatus o ho
  rw [show status = .done r w₁ from hstatus] at hth
  obtain ⟨hpost, hrely⟩ := h.done hth
  have hcommit := commitPost_of_post hpost ho
  refine ⟨?_, ?_⟩
  · rintro s rfl hfresh hchecked
    obtain ⟨hhist, hsession, json, tail, hread, hle⟩ := hcommit.fresh hfresh hchecked
    exact ⟨hrely.evolves.hist_get hhist, hsession, json, tail,
      hrely.evolves.trace.subset hread, hle⟩
  · rintro e rfl hclosed acts σ' hrun n x hx
    -- the thread is still finished later, and has only seen interference since
    have hth' : σ'.threads[t]? = some ⟨call, start, .done r w₁⟩ :=
      Machine.run_done _ hrun hth
    have hreach' := h.trans hrun
    obtain ⟨_, hrely'⟩ := hreach'.done hth'
    have hdead : AllDead t w₁ := hcommit hclosed (hrely.evolves.genuine hgen)
    exact (hdead.calm hrely'.quiet.toCalm).absent hreach'.inv hx

/-! ## Runs with and without phantoms -/

/-- The read is good for `Genuine t`. -/
def Event.genuine (t : Nat) : Event → Bool
  | .readLog u (.occupant _) _ (some e) k => u ≠ t ∨ k = some e
  | _ => true

instance : Decidable (Genuine t w) :=
  decidable_of_iff (w.trace.all (Event.genuine t) = true) (by
    rw [List.all_eq_true]
    constructor
    · intro h guarded n e k hmem
      have hev := h _ hmem
      simpa [Event.genuine] using hev
    · intro h ev hmem
      unfold Event.genuine
      split
      next u guarded n e k =>
        by_cases hu : u = t
        · subst hu
          simp [h guarded n e k hmem]
        · simp [hu]
      next => rfl)

/-- Thread 1 takes slot 0 before thread 0, which finds out, reads the winner back, and goes on to
    slot 1. -/
def raceForSlot : List SampleAct :=
  provision ++
    ([.spawn (.commit sampleConfig (sampleInput "y"))] ++ oks 1 2 ++ [.step 1 (Pick.clock 8)] ++
      acked 1 1 ++ oks 1 1) ++
    [.step 0 Pick.ok, .env (2 : Nat), .step 0 (Pick.conflict "exists")] ++ oks 0 2 ++ acked 0 3 ++
    oks 0 1

/-- The loser of a race is committed once, right above the winner. -/
theorem exactly_once_raceForSlot : ∃ σ, Reachable sampleCodec sampleCollection σ ∧
    Genuine 0 σ.world ∧ σ.world.hist.map (·.session) = [1, 0] ∧ AtMostOnce 0 σ.world := by
  have hrun : ((deployed sampleCodec sampleCollection).run State.init raceForSlot).map
      (fun σ => (decide (Genuine 0 σ.world), σ.world.hist.map (·.session))) =
        some (true, [1, 0]) := by
    decide +kernel
  obtain ⟨σ, hreach, hfacts⟩ := exists_reachable hrun
  simp only [Prod.mk.injEq, decide_eq_true_eq] at hfacts
  exact ⟨σ, hreach, hfacts.1, hfacts.2, (commit_exactly_once hreach hfacts.1).1⟩

/-- Thread 0's create takes slot 0 and its acknowledgement is lost.  The slot is folded and
    retired, and a create thread 1 sent earlier fills it again. -/
def phantom : List SampleAct :=
  provision ++
    ([.spawn (.commit sampleConfig (sampleInput "y"))] ++ oks 1 2 ++ [.step 1 (Pick.clock 8)] ++
      oks 1 1) ++
    [.step 0 Pick.ok, .env (2 : Nat), .step 0 (Pick.fail (.mk .networkError "lost"))] ++
    foldFirst 2 3 ++ retireFirst 3 5 ++ [.env (1 : Nat)]

/-- **A commit that lands twice.**  After `phantom`, thread 0 reads slot 0 back, takes the phantom
    for the winner, and commits the same mutation again at slot 1. -/
theorem double_commit :
    ¬ ∀ σ, Reachable sampleCodec sampleCollection σ → ∀ t, AtMostOnce t σ.world := by
  intro hclaim
  have hrun : ((deployed sampleCodec sampleCollection).run State.init
      (phantom ++ oks 0 2 ++ acked 0 7 ++ oks 0 1)).map
      (fun σ => (σ.world.hist[0]?.map (·.session), σ.world.hist[1]?.map (·.session))) =
        some (some 0, some 0) := by
    decide +kernel
  obtain ⟨σ, hreach, hfacts⟩ := exists_reachable hrun
  simp only [Prod.mk.injEq] at hfacts
  obtain ⟨e, he, hs⟩ := Option.map_eq_some_iff.mp hfacts.1
  obtain ⟨e', he', hs'⟩ := Option.map_eq_some_iff.mp hfacts.2
  exact absurd (hclaim σ hreach 0 0 1 e e' he he' hs hs') (by decide)

/-! ## First insert wins -/

/-- `e` is an insert of the document. -/
def IsInsert (c : Collection) (id : JsString) (e : LogEntry) : Prop :=
  e.op = .I ∧ e.docId = id ∧ e.collection = c.collectionName

instance {id : JsString} {e : LogEntry} : Decidable (IsInsert c id e) :=
  inferInstanceAs (Decidable (_ ∧ _ ∧ _))

/-- `e` is a delete of the document. -/
def IsDelete (c : Collection) (id : JsString) (e : LogEntry) : Prop :=
  e.op = .D ∧ e.docId = id ∧ e.collection = c.collectionName

theorem committedRows_succ {n : Nat} {e : LogEntry} (hn : w.hist[n]? = some e) :
    committedRows c w.hist (n + 1) =
      foldEntry c.collectionName none (committedRows c w.hist n) e := by
  unfold committedRows
  rw [List.take_add_one, hn, foldLogEntriesOnto_append]
  rfl

/-- Right above an insert the row is live. -/
theorem live_after_insert {n : Nat} {e : LogEntry} {id : JsString} (hn : w.hist[n]? = some e)
    (hok : EntryOk n e) (hins : IsInsert c id e) :
    (committedRows c w.hist (n + 1)).get id ≠ none := by
  obtain ⟨hop, hid, hcoll⟩ := hins
  obtain ⟨doc, himg, _⟩ := hok.image (by rw [hop]; decide)
  have heff : entryEffect c.collectionName id e = some (some doc) := by
    unfold entryEffect
    rw [if_neg (by rw [hcoll, hid]; simp), hop, himg]
  rw [committedRows_succ hn, get_foldEntry, heff]
  exact Option.some_ne_none doc

/-- A row that is live at `a` and absent at `b` was deleted in between. -/
theorem deleted_between {id : JsString} {a : Nat} (hlive : (committedRows c w.hist a).get id ≠ none) :
    ∀ len, a + len ≤ w.tail → (committedRows c w.hist (a + len)).get id = none →
      ∃ k x, a ≤ k ∧ k < a + len ∧ w.hist[k]? = some x ∧ IsDelete c id x := by
  intro len
  induction len with
  | zero => intro _ habs; exact absurd habs hlive
  | succ len ih =>
    intro hle habs
    have hlt : a + len < w.hist.length := hle
    have hget : w.hist[a + len]? = some w.hist[a + len] := List.getElem?_eq_getElem hlt
    by_cases hbefore : (committedRows c w.hist (a + len)).get id = none
    · obtain ⟨k, x, hlo, hhi, hx, hdel⟩ := ih (by omega) hbefore
      exact ⟨k, x, hlo, by omega, hx, hdel⟩
    · -- the entry at `a + len` took the row
      refine ⟨a + len, _, by omega, by omega, hget, ?_⟩
      rw [← Nat.add_assoc, committedRows_succ hget, get_foldEntry] at habs
      unfold entryEffect at habs
      split at habs
      · exact absurd habs hbefore
      next hsame =>
        have hcoll : w.hist[a + len].collection = c.collectionName := by
          by_contra hne
          exact hsame (Or.inl hne)
        have hid : w.hist[a + len].docId = id := by
          by_contra hne
          exact hsame (Or.inr hne)
        split at habs
        next hop => exact ⟨hop, hid, hcoll⟩
        next =>
          split at habs
          · exact absurd habs hbefore
          · cases habs

/-- Every create of an insert of the document was a guarded one. -/
def InsertsGuarded (c : Collection) (id : JsString) (w : World) : Prop :=
  ∀ m ∈ w.net, ∀ n e guarded, m.req = .createLog n e guarded → IsInsert c id e → guarded = true

/-- A committed insert found its row absent right below its slot. -/
theorem Inv.insert_absent (h : Inv codec c w) (hhon : ∀ t, Honest t w) {id : JsString}
    (hguarded : InsertsGuarded c id w) {n : Nat} {e : LogEntry} (hn : w.hist[n]? = some e)
    (hins : IsInsert c id e) : (committedRows c w.hist n).get id = none := by
  obtain ⟨m, hm, guarded, hreq, _, _⟩ := h.committed n e hn
  have hg := hguarded m hm n e guarded hreq hins
  have hok := (h.msgs m hm).req
  rw [hreq, hg] at hok
  have habs := (CreateOk.insert hok rfl).2.2 (hhon m.owner)
  rwa [hins.2.1] at habs

/-- **First insert wins**, in a run in which no log object an insert decided on was a phantom. -/
theorem first_insert_wins (h : Reachable codec c σ) (hhon : ∀ t, Honest t σ.world) {id : JsString}
    (hguarded : InsertsGuarded c id σ.world) :
    (∀ (i j : Nat) e e', i < j → σ.world.hist[i]? = some e → σ.world.hist[j]? = some e' →
      IsInsert c id e → IsInsert c id e' →
        ∃ k x, i < k ∧ k < j ∧ σ.world.hist[k]? = some x ∧ IsDelete c id x) ∧
    (∀ (n : Nat) e, σ.world.hist[n]? = some e → IsInsert c id e →
      (committedRows c σ.world.hist n).get id = none) ∧
    ∀ (t : Nat) ctx members uuidv7 mintedId start key (s : CommitSuccess) w₁,
      σ.threads[t]? = some ⟨.insert ctx members uuidv7 mintedId, start,
        .done (.ok (key, some s)) w₁⟩ → s.replayed = false →
      s.entry.docId = key ∧ (committedRows c σ.world.hist s.entry.seq).get key = none := by
  have hinv := h.inv
  have habsent : ∀ (n : Nat) e, σ.world.hist[n]? = some e → IsInsert c id e →
      (committedRows c σ.world.hist n).get id = none :=
    fun n e hn hins => hinv.insert_absent hhon hguarded hn hins
  refine ⟨?_, habsent, ?_⟩
  · intro i j e e' hij hi hj hins hins'
    have hlive := live_after_insert hi (hinv.entryOk hi) hins
    have hlt : j < σ.world.hist.length := (List.getElem?_eq_some_iff.mp hj).1
    have hsplit : i + 1 + (j - (i + 1)) = j := by omega
    have hdel := deleted_between hlive (j - (i + 1)) (by rw [hsplit]; exact Nat.le_of_lt hlt)
    rw [hsplit] at hdel
    obtain ⟨k, x, hlo, hhi, hx, hd⟩ := hdel (habsent j e' hj hins')
    exact ⟨k, x, hlo, hhi, hx, hd⟩
  · intro t ctx members uuidv7 mintedId start key s w₁ hth hfresh
    obtain ⟨hpost, hrely⟩ := h.done hth
    obtain ⟨hid, _, hle, habs⟩ := hpost.2 hfresh
    refine ⟨hid, ?_⟩
    rw [hrely.evolves.committedRows hle]
    exact habs (hrely.evolves.honest (hhon t))

/-- The read is good for `Honest`. -/
def Event.honest : Event → Bool
  | .readLog _ why _ (some e) k => !why.ofInsert ∨ k = some e
  | _ => true

theorem honest_of_trace (h : w.trace.all Event.honest = true) (t : Nat) : Honest t w := by
  intro why n e k hmem hwhy
  have hev := List.all_eq_true.mp h _ hmem
  simpa [Event.honest, hwhy] using hev

/-- The request is good for `InsertsGuarded`. -/
def Req.insertGuarded (c : Collection) (id : JsString) : Req → Bool
  | .createLog _ e guarded => ¬ IsInsert c id e ∨ guarded
  | _ => true

theorem insertsGuarded_of_net {id : JsString}
    (h : (w.net.all fun m => m.req.insertGuarded c id) = true) : InsertsGuarded c id w := by
  intro m hm n e guarded hreq hins
  have hreq' := List.all_eq_true.mp h m hm
  rw [hreq] at hreq'
  simpa [Req.insertGuarded, hins] using hreq'

/-- `runInsert` of `{ _id: "x" }`, with a caller's id. -/
def insertX : Call :=
  .insert ⟨sampleConfig, fun _ => none, fun _ _ _ => none⟩ [(js "_id", .str (js "x"))] [] none

/-- Thread 0 creates the manifest, with message 0. -/
def createManifest : List SampleAct :=
  [.spawn (.create (zeroManifest (js "0a")))] ++ acked 0 0

/-- `x` is inserted, deleted, and inserted again. -/
def insertDeleteInsert : List SampleAct :=
  createManifest ++
    ([.spawn insertX] ++ oks 1 4 ++ [.step 1 (Pick.clock 7)] ++ acked 1 1 ++ oks 1 1) ++
    ([.spawn (.commit sampleConfig { sampleInput "x" with op := .D, body := none })] ++ oks 2 3 ++
      [.step 2 (Pick.clock 8)] ++ acked 2 2 ++ oks 2 1) ++
    ([.spawn insertX] ++ oks 3 6 ++ [.step 3 (Pick.clock 9)] ++ acked 3 3 ++ oks 3 1)

/-- The delete is between the two inserts. -/
theorem first_insert_insertDeleteInsert : ∃ σ, Reachable sampleCodec sampleCollection σ ∧
    σ.world.hist.map (·.op) = [.I, .D, .I] ∧ ∀ (n : Nat) e, σ.world.hist[n]? = some e →
      IsInsert sampleCollection (js "x") e →
      (committedRows sampleCollection σ.world.hist n).get (js "x") = none := by
  have hrun : ((deployed sampleCodec sampleCollection).run State.init insertDeleteInsert).map
      (fun σ => (σ.world.hist.map (·.op), σ.world.trace.all Event.honest,
        σ.world.net.all fun m => m.req.insertGuarded sampleCollection (js "x"))) =
        some ([.I, .D, .I], true, true) := by
    decide +kernel
  obtain ⟨σ, hreach, hfacts⟩ := exists_reachable hrun
  simp only [Prod.mk.injEq] at hfacts
  obtain ⟨hops, hhon, hguarded⟩ := hfacts
  exact ⟨σ, hreach, hops,
    (first_insert_wins hreach (honest_of_trace hhon) (insertsGuarded_of_net hguarded)).2.1⟩

/-- Threads 1 and 3 insert `x` and both find slot 0 empty.  Thread 3 wins it; the slot is folded
    and retired, and an older create of thread 2 fills it again before thread 1's arrives. -/
def insertPastPhantom : List SampleAct :=
  createManifest ++
    ([.spawn insertX] ++ oks 1 4 ++ [.step 1 (Pick.clock 7)] ++ oks 1 1) ++
    ([.spawn (.commit sampleConfig (sampleInput "y"))] ++ oks 2 2 ++ [.step 2 (Pick.clock 7)] ++
      oks 2 1) ++
    ([.spawn insertX] ++ oks 3 4 ++ [.step 3 (Pick.clock 8)] ++ acked 3 3 ++ oks 3 1) ++
    foldFirst 4 4 ++ retireFirst 5 6 ++
    [.env (2 : Nat), .env (1 : Nat), .step 1 (Pick.conflict "exists")] ++ oks 1 2 ++ acked 1 8 ++
    oks 1 1

/-- **An insert that replaces a live row.**  The window of thread 1 holds the phantom where the
    insert of `x` was. -/
theorem double_insert : ¬ ∀ σ, Reachable sampleCodec sampleCollection σ →
    ∀ id, InsertsGuarded sampleCollection id σ.world →
      ∀ (n : Nat) e, σ.world.hist[n]? = some e → IsInsert sampleCollection id e →
        (committedRows sampleCollection σ.world.hist n).get id = none := by
  intro hclaim
  have hrun : ((deployed sampleCodec sampleCollection).run State.init insertPastPhantom).map
      (fun σ => (σ.world.net.all fun m => m.req.insertGuarded sampleCollection (js "x"),
        σ.world.hist[1]?.any fun e => decide (IsInsert sampleCollection (js "x") e),
        ((committedRows sampleCollection σ.world.hist 1).get (js "x")).isSome)) =
        some (true, true, true) := by
    decide +kernel
  obtain ⟨σ, hreach, hfacts⟩ := exists_reachable hrun
  simp only [Prod.mk.injEq, Option.any_eq_true, decide_eq_true_eq] at hfacts
  obtain ⟨hguarded, ⟨e, he, hins⟩, hlive⟩ := hfacts
  have habs := hclaim σ hreach (js "x") (insertsGuarded_of_net hguarded) 1 e he hins
  rw [habs] at hlive
  cases hlive

end Baerly
