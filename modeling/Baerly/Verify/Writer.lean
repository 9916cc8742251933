import Baerly.Verify.Compactor

/-
  `Writer.commit` keeps the protocol, and what it knows when it returns.

  Two arguments run through the create loop.  EXACTLY ONCE: before every create, all earlier
  creates of the call are dead; a lost slot becomes dead when the readback shows the entry that was
  committed there.  FIRST INSERT WINS: a guarded insert keeps in its window every entry from the
  tail its check folded through up to the slot it is about to create.
-/

namespace Baerly

open Async

variable {codec : Codec} {c : Collection} {t : Nat} {w w' : World}

/-! ## The insert window -/

/-- Every entry of the window was read by this thread, for an insert, in the slot of its
    position. -/
def Window (t : Nat) (w : World) (fromSeq : Nat) (es : List LogEntry) : Prop :=
  ∀ i e, es[i]? = some e → ∃ why since, why.ofInsert = true ∧
    ReadFact t why since (fromSeq + i) (some e) w

/-- What a window has seen stays so. -/
theorem Window.keep {n : Nat} {es : List LogEntry} (h : Window t w n es) (hev : Evolves w w') :
    Window t w' n es := by
  intro i e hi
  obtain ⟨why, since, hwhy, hf⟩ := h i e hi
  exact ⟨why, since, hwhy, hf.keep hev⟩

/-- The answers to log reads are a window. -/
theorem Window.of_answers {why : Purpose} {since n : Nat} {es : List LogEntry}
    (hwhy : why.ofInsert = true) (h : Answers (ReadFact t why since) w n es) :
    Window t w n es :=
  fun i e hi => ⟨why, since, hwhy, h i e hi⟩

/-- Two windows in a row are one. -/
theorem Window.append {n : Nat} {xs ys : List LogEntry} (hx : Window t w n xs)
    (hy : Window t w (n + xs.length) ys) : Window t w n (xs ++ ys) := by
  intro i e hi
  rw [List.getElem?_append] at hi
  split at hi
  · exact hx i e hi
  next hge =>
    obtain ⟨why, since, hwhy, hf⟩ := hy (i - xs.length) e hi
    rw [show n + xs.length + (i - xs.length) = n + i by omega] at hf
    exact ⟨why, since, hwhy, hf⟩

/-- Without phantoms the window is the committed slice. -/
theorem Window.committed {n : Nat} {es : List LogEntry} (h : Window t w n es)
    (hon : Honest t w) : ∀ i e, es[i]? = some e → w.hist[n + i]? = some e := by
  intro i e hi
  obtain ⟨why, since, hwhy, hf⟩ := h i e hi
  obtain ⟨k, hmem, hk, _, _⟩ := hf.event
  exact hk e (hon why _ e k hmem hwhy)

/-- **The window decision.**  If the newest entry for the document is a delete, or there is none,
    folding the window over rows without the document leaves it absent. -/
theorem decideNewest_absent {input : CommitInput} {replay : Bool} {base : Rows}
    (hbase : base.get input.docId = none) : ∀ newest : List LogEntry,
    decideNewest input replay newest = .ok none →
      (foldLogEntriesOnto input.collection none base newest.reverse).get input.docId = none := by
  intro newest
  induction newest with
  | nil => intro _; exact hbase
  | cons e es ih =>
    intro h
    unfold decideNewest at h
    rw [List.reverse_cons, foldLogEntriesOnto_append]
    show (foldEntry _ none _ e).get _ = none
    rw [get_foldEntry]
    split at h
    next hother =>
      have heff : entryEffect input.collection input.docId e = none := by
        unfold entryEffect
        rw [if_pos hother]
      rw [heff]
      exact ih h
    next hsame =>
      split at h
      next hop =>
        have heff : entryEffect input.collection input.docId e = some none := by
          unfold entryEffect
          rw [if_neg hsame, hop]
        rw [heff]
        rfl
      next =>
        split at h
        · cases h
        · cases h

/-- What a guarded input promises: the document is absent from the committed prefix its check
    folded through. -/
def GuardOk (c : Collection) (t : Nat) (input : CommitInput) (w : World) : Prop :=
  ∀ g, input.insertGuard = some g → g.absentBelowSeq ≤ w.tail ∧ input.op = .I ∧
    input.collection = c.collectionName ∧
    (Honest t w → (committedRows c w.hist g.absentBelowSeq).get input.docId = none)

/-- What an insert has checked stays so. -/
theorem GuardOk.keep {input : CommitInput} (h : GuardOk c t input w) (hev : Evolves w w') :
    GuardOk c t input w' := by
  intro g hg
  obtain ⟨hle, hop, hcoll, habs⟩ := h g hg
  refine ⟨Nat.le_trans hle hev.tail, hop, hcoll, fun hon => ?_⟩
  rw [hev.committedRows hle]
  exact habs (hev.honest hon)

/-- The window reaches from the guard's tail up to the slot, and was decided empty. -/
def WindowOk (t : Nat) (input : CommitInput) (w : World) (window : List LogEntry) (seq : Nat) :
    Prop :=
  ∀ g, input.insertGuard = some g → Window t w g.absentBelowSeq window ∧
    g.absentBelowSeq + window.length = seq ∧ decideInsertTarget window input g = .ok none

/-- So does what it has read since. -/
theorem WindowOk.keep {input : CommitInput} {window : List LogEntry} {seq : Nat}
    (h : WindowOk t input w window seq) (hev : Evolves w w') :
    WindowOk t input w' window seq := by
  intro g hg
  obtain ⟨hwin, hlen, hdec⟩ := h g hg
  exact ⟨hwin.keep hev, hlen, hdec⟩

/-- **Absent right below the slot.** -/
theorem absent_below {input : CommitInput} {g : InsertGuard} {window : List LogEntry} {seq : Nat}
    (hg : input.insertGuard = some g) (hguard : GuardOk c t input w)
    (hwin : WindowOk t input w window seq) (hon : Honest t w) :
    (committedRows c w.hist seq).get input.docId = none := by
  obtain ⟨_, _, hcoll, habs⟩ := hguard g hg
  obtain ⟨hw, hlen, hdec⟩ := hwin g hg
  have hfold := fold_slice (c := c) window.length (Nat.le_refl _) (fun _ => rfl)
    (hw.committed hon) input.docId
  rw [List.take_length, hlen, ← hcoll] at hfold
  rw [← hfold]
  have hrev := decideNewest_absent (habs hon) window.reverse hdec
  rw [List.reverse_reverse] at hrev
  exact hrev

/-! ## Minting -/

/-- What the prechecks leave for the entry. -/
theorem precheck_image {cfg : WriterConfig} {input : CommitInput}
    (h : input.precheck cfg = .ok ()) (hop : input.op ≠ .D) :
    ∃ doc, input.body = some doc ∧ doc.member (js "_id") = some (.str input.docId) := by
  unfold CommitInput.precheck at h
  rw [if_neg hop] at h
  cases h₁ : assertDocId cfg.normalizeNfc input.docId with
  | error e => rw [h₁] at h; cases h
  | ok u =>
    rw [h₁] at h
    cases h₂ : assertPostImageIdentity input.docId input.body with
    | error e => rw [h₂] at h; cases h
    | ok u => exact assertPostImageIdentity_ok h₂

/-- A minted entry names its slot and its document. -/
theorem mintEntry_ok {session ms seq : Nat} {input : CommitInput}
    (himg : input.op ≠ .D → ∃ doc, input.body = some doc ∧
      doc.member (js "_id") = some (.str input.docId)) :
    EntryOk seq (mintEntry session ms input seq) where
  seq := rfl
  lsn := rfl
  image := by
    intro hop
    have hop' : input.op ≠ .D := hop
    obtain ⟨doc, hbody, hid⟩ := himg hop'
    refine ⟨doc, ?_, hid⟩
    show (if input.op = .D then none else input.body) = some doc
    rw [if_neg hop', hbody]

/-! ## One create -/

/-- Every create of the thread except message `id` is dead. -/
def DeadExcept (t : Nat) (id : Nat) (w : World) : Prop :=
  ∀ (i : Nat) (m : Msg), w.net[i]? = some m → m.owner = t → m.req.isCreateLog = true → i ≠ id →
    Dead w m

/-- No create comes alive again. -/
theorem DeadExcept.calm {id : Nat} (h : DeadExcept t id w) (hc : Calm t w w') :
    DeadExcept t id w' := by
  intro i m hi hown hcr hne
  rcases Nat.lt_or_ge i w.net.length with hl | hl
  · obtain ⟨m', hm', he⟩ := hc.evolves.net_back hl hi
    rw [he.req] at hcr
    exact hc.evolves.dead he (h i m' hm' (he.owner.symm.trans hown) hcr hne)
  · rw [hc.creates i m hl hi hown] at hcr
    cases hcr

/-- Once the last create is dead, all are. -/
theorem DeadExcept.allDead {id : Nat} {m : Msg} (h : DeadExcept t id w)
    (hm : w.net[id]? = some m) (hd : Dead w m) : AllDead t w := by
  intro m' hm' hown hcr
  obtain ⟨i, hi⟩ := List.getElem?_of_mem hm'
  by_cases hid : i = id
  · subst hid
    rw [hm] at hi
    cases hi
    exact hd
  · exact h i m' hi hown hcr hid

/-- What a create leaves behind: one message that may still be alive. -/
structure Created (t : Nat) (n : Nat) (e : LogEntry) (guarded : Bool)
    (o : Except Err (Option JsString)) (w : World) : Prop where
  others : ∃ (id : Nat) (m : Msg), w.net[id]? = some m ∧ m.req = .createLog n e guarded ∧
    (Genuine t w → DeadExcept t id w)
  acked : ∀ date, o = .ok date → w.hist[n]? = some e ∨ n < w.floor
  rejected : ∀ err, o = .error err → err.isWriteConflict = false → err.isNotApplied = true →
    Genuine t w → AllDead t w

/-- **Creating a slot.** -/
theorem wp_create {n : Nat} {e : LogEntry} {guarded : Bool} (hr : CreateOk c w t n e guarded)
    (hdead : Genuine t w → AllDead t w) :
    (protocol codec c).wp t (Task.write (.createLog n e guarded)) (fun o w' =>
      Evolves w w' ∧ Created t n e guarded o w') w := by
  intro w₁ hrel hinv pick id w₂ hex
  obtain ⟨hcol, rfl, rfl⟩ := exec_send hex
  have hq := hrel.quiet
  have hdead₁ : Genuine t w₁ → AllDead t w₁ := fun hg =>
    (hdead (hq.evolves.genuine hg)).calm hq.toCalm
  have hok : ReqOk codec c w₁ t (.createLog n e guarded) := hq.evolves.createOk hr
  refine ⟨step_send hinv hok hcol (fun _ => hdead₁), ?_⟩
  -- in the world right after sending, only the new message can be alive
  have hev₁ := Evolves.sendMsg w₁ t (.createLog n e guarded)
  have hexcept : Genuine t (w₁.sendMsg t (.createLog n e guarded)) →
      DeadExcept t w₁.net.length (w₁.sendMsg t (.createLog n e guarded)) := by
    intro hg i m hi hown hcr hne
    rcases net_sendMsg hi with hold | ⟨hidx, _⟩
    · exact hev₁.dead (.refl m)
        (hdead₁ (hev₁.genuine hg) m (List.mem_of_getElem? hold) hown hcr)
    · exact absurd hidx hne
  intro w₃ hrel₃ hinv₃ pick₃ o w₄ hex₃
  have hq₃ := hrel₃.quiet
  have hev₃ : Evolves w w₃ := (hq.evolves.trans hev₁).trans hq₃.evolves
  have hexcept₃ : Genuine t w₃ → DeadExcept t w₁.net.length w₃ := fun hg =>
    (hexcept (hq₃.evolves.genuine hg)).calm hq₃.toCalm
  obtain ⟨m, hm, hown, hcase⟩ := exec_await hex₃
  have hreq : m.req = .createLog n e guarded := by
    have hlt : w₁.net.length < (w₁.sendMsg t (.createLog n e guarded)).net.length := by
      simp [World.sendMsg]
    obtain ⟨m₀, hm₀, he⟩ := hq₃.evolves.net_back hlt hm
    rcases net_sendMsg hm₀ with hold | ⟨_, rfl⟩
    · have hlt' := (List.getElem?_eq_some_iff.mp hold).1
      omega
    · exact he.req
  have hmsg := hinv₃.msgs m (List.mem_of_getElem? hm)
  rcases hcase with ⟨rfl, happ, date, rfl⟩ | ⟨rfl, href, msg, rfl⟩ |
    ⟨err, rfl, hwc, hna, happ, rfl⟩ | ⟨rfl, err, rfl, hwc, hna⟩
  · refine ⟨step_id hinv₃, hev₃, ⟨_, m, hm, hreq, hexcept₃⟩, fun d _ => ?_, fun err h => (by cases h)⟩
    have hland := hmsg.landed happ
    rw [hreq] at hland
    exact hland.2
  · refine ⟨step_id hinv₃, hev₃, ⟨_, m, hm, hreq, hexcept₃⟩, fun d h => (by cases h), ?_⟩
    intro err h hwc
    cases h
    simp at hwc
  · have hset := Quiet.setMsg (t := t) hm (.voided m)
    have hnew : (w₃.setMsg w₁.net.length { m with void := true }).net[w₁.net.length]? =
        some { m with void := true } :=
      List.getElem?_set_self (List.getElem?_eq_some_iff.mp hm).1
    have hexcept₄ : Genuine t (w₃.setMsg w₁.net.length { m with void := true }) →
        DeadExcept t w₁.net.length (w₃.setMsg w₁.net.length { m with void := true }) := fun hg =>
      (hexcept₃ (hset.evolves.genuine hg)).calm hset.toCalm
    refine ⟨step_void hinv₃ hm, hev₃.trans hset.evolves, ⟨_, _, hnew, hreq, hexcept₄⟩,
      fun d h => (by cases h), ?_⟩
    intro err' _ _ _ hg
    exact (hexcept₄ hg).allDead hnew (Or.inl ⟨rfl, happ⟩)
  · refine ⟨step_id hinv₃, hev₃, ⟨_, m, hm, hreq, hexcept₃⟩, fun d h => (by cases h), ?_⟩
    intro err' h _ hna'
    cases h
    rw [hna] at hna'
    cases hna'

/-! ## Steps 1 to 4 -/

/-- A manifest that was read is there. -/
theorem ManifestOk.born {m : CurrentJson} (h : ManifestOk codec c w m) : w.cur ≠ none := by
  obtain ⟨m', hm', _⟩ := h.generation
  rw [hm']
  exact Option.some_ne_none m'

/-- Provisioning gives a manifest, this writer's or another's. -/
theorem wp_provisionCurrentJson :
    (protocol codec c).wp t (provisionCurrentJson c) (fun r w' => Calm t w w' ∧
      ∀ m, r = .ok m → ManifestOk codec c w' m) w := by
  refine Protocol.wp_seq wp_mintGeneration ?_ fun e w₁ h => ⟨h.1.toCalm, nofun⟩
  intro g w₁ h
  have hq₁ := h.1
  have hzero : (zeroManifest g).isZeroState = true := rfl
  generalize zeroManifest g = initial at hzero
  refine Protocol.wp_attempt_bind (wp_createCurrentJson hzero) ?_
  rintro (e | created) w₂ ⟨hq₂, hm⟩
  · dsimp only
    have hcalm₂ := hq₁.toCalm.trans hq₂.toCalm
    split
    · exact ⟨hcalm₂, nofun⟩
    · refine Protocol.wp_seq wp_readCurrentJson ?_ fun e w₃ h => ⟨hcalm₂.trans h.1, nofun⟩
      rintro (_ | recovered) w₃ ⟨hcalm₃, hread⟩
      · exact ⟨hcalm₂.trans hcalm₃, nofun⟩
      · refine ⟨hcalm₂.trans hcalm₃, fun m h => ?_⟩
        cases h
        exact (hread _ rfl).found recovered rfl
  · refine ⟨hq₁.toCalm.trans hq₂.toCalm, fun m h => ?_⟩
    cases h
    exact hm created rfl

/-- **Step 1**: a manifest, read or provisioned. -/
theorem wp_readOrProvision :
    (protocol codec c).wp t (readOrProvision c) (fun r w' => Calm t w w' ∧
      ∀ m, r = .ok m → ManifestOk codec c w' m) w := by
  refine Protocol.wp_seq wp_readCurrentJson ?_ fun e w₁ h => ⟨h.1, nofun⟩
  rintro (_ | current) w₁ ⟨hcalm, hread⟩
  · refine Protocol.wp_mono wp_provisionCurrentJson ?_
    rintro r w₂ ⟨hcalm₂, hm⟩
    exact ⟨hcalm.trans hcalm₂, hm⟩
  · refine ⟨hcalm, fun m h => ?_⟩
    cases h
    exact (hread _ rfl).found current rfl

theorem wp_walkLog {cfg : WriterConfig} {current : CurrentJson} :
    (protocol codec c).wp t (walkLog cfg c current) (fun _ w' => Quiet t w w') w := by
  unfold walkLog
  split
  · exact Protocol.wp_seq (wp_walkLogRange (readRule codec c t .tailFind 0) (Nat.zero_le _))
      (fun es w₁ h => h.1) fun e w₁ h => h.1
  · exact Quiet.refl t w

/-- Markers are written without a create. -/
theorem wp_putMarkers {cfg : WriterConfig} {input : CommitInput} :
    (protocol codec c).wp t (putMarkers cfg input) (fun _ w' => Quiet t w w') w := by
  have hmark : ∀ (keys : List Key) (r : Req), r ∈ keys.map Req.createMarker →
      ReqOk codec c w t r ∧ r.isCreateLog = false := by
    intro keys r hr
    obtain ⟨key, _, rfl⟩ := List.mem_map.mp hr
    exact ⟨trivial, rfl⟩
  unfold putMarkers
  split
  · exact Quiet.refl t w
  · refine wp_check (fun newKeys _ => ?_) fun e _ => Quiet.refl t w
    dsimp only
    split
    · refine Protocol.wp_seq (wp_writeAll ?_ (hmark newKeys)) (fun _ w₁ hq => hq) fun e w₁ hq => hq
      intro id w₁
      refine Protocol.wp_attempt_bind (wp_await id) ?_
      rintro (e | date) w₂ hq₂
      · dsimp only
        split
        · exact hq₂
        · exact hq₂
      · exact hq₂
    · refine Protocol.wp_seq (wp_sendAll _ w (hmark _)) ?_ fun e w₁ hq => hq
      intro ids w₁ hq₁
      exact wp_check (fun _ _ => hq₁) fun e _ => hq₁

/-- A galloping search ends at or below the tail. -/
theorem foundTail_le {why : Purpose} {since hint r : Nat}
    (h : FoundTail (ReadFact t why since) w hint r) (hle : hint ≤ w.tail) : r ≤ w.tail := by
  rcases h.2 with heq | ⟨lo, e, _, hocc, heq⟩
  · omega
  · have hlt := (hocc.occupied e rfl).1
    omega

/-! ## The folded window -/

/-- Collecting the bodies of a chunk: each slot had one, in order. -/
theorem collectBodies_ok {fromSeq stop : Nat} {bodies : List (Nat × Option LogEntry)} :
    ∀ (seqs : List Nat) (es : List LogEntry),
      collectBodies c fromSeq stop bodies seqs = .ok es → es.length = seqs.length ∧
        ∀ (i n : Nat), seqs[i]? = some n → ∃ e, es[i]? = some e ∧ bodies.lookup n = some (some e) := by
  intro seqs
  induction seqs with
  | nil =>
    intro es h
    cases h
    exact ⟨rfl, fun i n h => by cases h⟩
  | cons k seqs ih =>
    intro es h
    unfold collectBodies at h
    split at h
    next entry hlook =>
      cases hrest : collectBodies c fromSeq stop bodies seqs with
      | error e => rw [hrest] at h; cases h
      | ok es' =>
        rw [hrest] at h
        cases h
        obtain ⟨hlen, hall⟩ := ih es' hrest
        refine ⟨by simp [hlen], ?_⟩
        intro i n hi
        cases i with
        | zero =>
          cases hi
          exact ⟨entry, rfl, hlook⟩
        | succ i => exact hall i n hi
    next => cases h

/-- A chunk of folded entries is read whole or not at all. -/
theorem wp_foldedChunk {fromSeq stop chunk len : Nat} :
    (protocol codec c).wp t (foldedChunk c fromSeq stop (List.range' chunk len)) (fun r w' =>
      Quiet t w w' ∧ ∀ es, r = .ok es → es.length = len ∧
        Answers (ReadFact t .guard 0) w' chunk es) w := by
  have hR := readRule codec c t .guard 0
  have hall := wp_all hR (G := fun n v w => ReadFact t .guard 0 n v w) (w := w)
    (fun hF hq => hF.keep hq.evolves) (List.range' chunk len) (Nat.zero_le _)
    fun n w hw => hR.get n w hw
  refine Protocol.wp_seq hall ?_ fun e w₁ h => ⟨h.1, nofun⟩
  rintro bodies w₁ ⟨hq, hps⟩
  obtain ⟨_, hfacts⟩ := hps bodies rfl
  refine wp_ofExcept ⟨hq, fun es hes => ?_⟩
  obtain ⟨hlen, hget⟩ := collectBodies_ok _ es hes
  rw [List.length_range'] at hlen
  refine ⟨hlen, fun i e hi => ?_⟩
  have hlt : i < len := by
    have := (List.getElem?_eq_some_iff.mp hi).1
    omega
  obtain ⟨e', he', hlook⟩ := hget i (chunk + i) (by simp [hlt])
  rw [hi] at he'
  cases he'
  exact hfacts _ (InsMap.mem_of_lookup_eq_some hlook)

/-- The chunk loop keeps its place. -/
theorem wp_foldedLoop {fromSeq stop : Nat} :
    ∀ (fuel chunk : Nat) (w : World), stop - chunk ≤ fuel →
      (protocol codec c).wp t (foldedLoop c fromSeq stop fuel chunk) (fun r w' => Quiet t w w' ∧
        ∀ es, r = .ok es → es.length = stop - chunk ∧
          Answers (ReadFact t .guard 0) w' chunk es) w := by
  intro fuel
  induction fuel with
  | zero =>
    intro chunk w hfuel
    refine ⟨.refl t w, fun es hes => ?_⟩
    cases hes
    exact ⟨by simp; omega, .nil⟩
  | succ fuel ih =>
    intro chunk w hfuel
    by_cases hdone : stop ≤ chunk
    · rw [foldedLoop, if_pos hdone]
      refine ⟨.refl t w, fun es hes => ?_⟩
      cases hes
      exact ⟨by simp; omega, .nil⟩
    · rw [foldedLoop, if_neg hdone]
      have hpar : 0 < maxParallelLogReads := by decide
      refine Protocol.wp_seq wp_foldedChunk ?_ fun e w₁ h => ⟨h.1, nofun⟩
      rintro entries w₁ ⟨hq₁, hchunk⟩
      obtain ⟨hlen, hans⟩ := hchunk entries rfl
      refine Protocol.wp_seq (ih (min (chunk + maxParallelLogReads) stop) w₁ (by omega)) ?_
        fun e w₂ h => ⟨hq₁.trans h.1, nofun⟩
      rintro rest w₂ ⟨hq₂, hrest⟩
      obtain ⟨hlen₂, hans₂⟩ := hrest rest rfl
      refine ⟨hq₁.trans hq₂, fun es hes => ?_⟩
      cases hes
      refine ⟨by rw [List.length_append]; omega,
        (hans.keep (readRule codec c t .guard 0) hq₂).append ?_⟩
      rwa [hlen, show chunk + (min (chunk + maxParallelLogReads) stop - chunk) =
        min (chunk + maxParallelLogReads) stop by omega]

/-- **Rule for `#readFoldedInsertWindow`.** -/
theorem wp_readFoldedInsertWindow {fromSeq stop : Nat} :
    (protocol codec c).wp t (readFoldedInsertWindow c fromSeq stop) (fun r w' => Quiet t w w' ∧
      ∀ es, r = .ok es → es.length = stop - fromSeq ∧
        Answers (ReadFact t .guard 0) w' fromSeq es) w := by
  unfold readFoldedInsertWindow
  split
  · refine ⟨.refl t w, fun es hes => ?_⟩
    cases hes
    exact ⟨by simp; omega, .nil⟩
  · split
    · exact ⟨.refl t w, nofun⟩
    · exact wp_foldedLoop _ _ w (Nat.le_refl _)

/-- **Step 3**: the slot found is at or below the tail, and a guarded window reaches up to it. -/
theorem wp_findSlot {input : CommitInput} {current : CurrentJson}
    (hm : ManifestOk codec c w current) (hguard : GuardOk c t input w) :
    (protocol codec c).wp t (findSlot c input current) (fun r w' => Quiet t w w' ∧
      ∀ seq window, r = .ok (.ok (seq, window)) →
        seq ≤ w'.tail ∧ WindowOk t input w' window seq) w := by
  have hhint := hm.hint_le
  have hstart : current.logSeqStart ≤ current.tailHint := hm.wf.start_le
  unfold findSlot
  cases hg : input.insertGuard with
  | none =>
    refine Protocol.wp_seq (wp_findLogTail (readRule codec c t .tailFind 0) (Nat.zero_le _)) ?_
      fun e w₁ h => ⟨h.1, nofun⟩
    rintro tail w₁ ⟨hq, hfound⟩
    have htail := hq.evolves.tail
    refine ⟨hq, fun seq window h => ?_⟩
    cases h
    refine ⟨foundTail_le (hfound _ rfl) (by omega), fun g hg' => ?_⟩
    rw [hg] at hg'
    cases hg'
  | some g =>
    -- a guarded insert reads everything from its guard up to the tail
    obtain ⟨hle, _⟩ := hguard g hg
    refine Protocol.wp_seq wp_readFoldedInsertWindow ?_ fun e w₁ h => ⟨h.1, nofun⟩
    rintro folded w₁ ⟨hq₁, hfolded⟩
    obtain ⟨hlen₁, hans₁⟩ := hfolded folded rfl
    refine Protocol.wp_seq (wp_probeTailFrom (readRule codec c t .guard 0) (Nat.zero_le _)) ?_
      fun e w₂ h => ⟨hq₁.trans h.1, nofun⟩
    rintro ⟨tail, entries⟩ w₂ ⟨hq₂, hprobe⟩
    obtain ⟨htail, hans₂, _⟩ := hprobe tail entries rfl
    have hq := hq₁.trans hq₂
    have hgrow := hq.evolves.tail
    have hbound := answers_le_tail hans₂ (by omega)
    refine wp_check (fun verdict hdec => ?_) fun e _ => ⟨hq, nofun⟩
    cases verdict with
    | some replayed => exact ⟨hq, nofun⟩
    | none =>
      refine ⟨hq, fun seq window h => ?_⟩
      cases h
      refine ⟨by omega, fun g' hg' => ?_⟩
      rw [hg] at hg'
      cases hg'
      -- the two reads join: the folded window ends where the probe begins
      have hwin₁ : Window t w₂ g.absentBelowSeq folded :=
        .of_answers rfl (hans₁.keep (readRule codec c t .guard 0) hq₂)
      have hwin₂ : Window t w₂ (g.absentBelowSeq + folded.length) entries := by
        rw [hlen₁, show g.absentBelowSeq + (current.logSeqStart - g.absentBelowSeq) =
          max g.absentBelowSeq current.logSeqStart by omega]
        exact .of_answers rfl hans₂
      refine ⟨hwin₁.append hwin₂, ?_, hdec⟩
      rw [List.length_append]
      omega

/-! ## The create loop -/

/-- A slot lost to the entry that was committed there: the create that lost it is dead. -/
theorem Created.lost {n since : Nat} {e occupant : LogEntry} {guarded g : Bool}
    {o : Except Err (Option JsString)} (h : Created t n e guarded o w) (hcalm : Calm t w w')
    (hread : ReadFact t (.occupant g) since n (some occupant) w') (hne : occupant ≠ e)
    (hgen : Genuine t w') : AllDead t w' := by
  obtain ⟨id, m, hm, hreq, hexcept⟩ := h.others
  obtain ⟨m', hm', he⟩ := hcalm.evolves.net id m hm
  have hexcept' := (hexcept (hcalm.evolves.genuine hgen)).calm hcalm
  refine hexcept'.allDead hm' (Or.inr ⟨n, e, guarded, occupant, he.req.trans hreq, ?_, hne⟩)
  obtain ⟨k, hmem, hk, _, _⟩ := hread.event
  exact hk occupant (hgen g n occupant k hmem)

/-- An occupant that is read is the slot's. -/
theorem wp_readLogOccupant {guarded : Bool} {seq : Nat} :
    (protocol codec c).wp t (readLogOccupant c guarded seq) (fun r w' => Quiet t w w' ∧
      ∀ e, r = .ok e → ReadFact t (.occupant guarded) 0 seq (some e) w') w := by
  refine Protocol.wp_seq (wp_getLog (Nat.zero_le _)) ?_ fun e w₁ h => ⟨h.1, nofun⟩
  rintro (_ | existing) w₁ ⟨hq, hf⟩
  · exact ⟨hq, nofun⟩
  · refine ⟨hq, fun e he => ?_⟩
    cases he
    exact hf _ rfl

/-- The next slot is at or below the tail, and the window has grown up to it. -/
theorem wp_nextSlot {input : CommitInput} {window : List LogEntry} {seq : Nat}
    {occupant : LogEntry} (hwin : WindowOk t input w window seq)
    (hread : ReadFact t (.occupant input.insertGuard.isSome) 0 seq (some occupant) w) :
    (protocol codec c).wp t (nextSlot c input window seq occupant) (fun r w' => Quiet t w w' ∧
      ∀ next window', r = .ok (.ok (next, window')) →
        next ≤ w'.tail ∧ WindowOk t input w' window' next) w := by
  have hlt : seq < w.tail := (hread.occupied occupant rfl).1
  unfold nextSlot
  cases hg : input.insertGuard with
  | none =>
    refine Protocol.wp_seq (wp_findLogTail (readRule codec c t .tailFind 0) (Nat.zero_le _)) ?_
      fun e w₁ h => ⟨h.1, nofun⟩
    rintro tail w₁ ⟨hq, hfound⟩
    have htail := hq.evolves.tail
    refine ⟨hq, fun next window' h => ?_⟩
    cases h
    refine ⟨foundTail_le (hfound _ rfl) (by omega), fun g hg' => ?_⟩
    rw [hg] at hg'
    cases hg'
  | some g =>
    rw [hg] at hread
    refine Protocol.wp_seq (wp_probeTailFrom (readRule codec c t .guard 0) (Nat.zero_le _)) ?_
      fun e w₁ h => ⟨h.1, nofun⟩
    rintro ⟨tail, entries⟩ w₁ ⟨hq, hprobe⟩
    obtain ⟨htail, hans, _⟩ := hprobe tail entries rfl
    have hgrow := hq.evolves.tail
    have hbound := answers_le_tail hans (by omega)
    refine wp_check (fun verdict hdec => ?_) fun e _ => ⟨hq, nofun⟩
    cases verdict with
    | some replayed => exact ⟨hq, nofun⟩
    | none =>
      refine ⟨hq, fun next window' h => ?_⟩
      cases h
      refine ⟨by omega, fun g' hg' => ?_⟩
      rw [hg] at hg'
      cases hg'
      obtain ⟨hold, hlen, _⟩ := hwin g hg
      -- the old window, the slot just lost, and what the probe passed
      have hocc : Window t w₁ (g.absentBelowSeq + window.length) [occupant] := by
        rw [hlen]
        exact .of_answers rfl (.singleton (hread.keep hq.evolves))
      have hnew : Window t w₁ (g.absentBelowSeq + (window ++ [occupant]).length) entries := by
        rw [List.length_append, List.length_singleton, ← Nat.add_assoc, hlen]
        exact .of_answers rfl hans
      refine ⟨((hold.keep hq.evolves).append hocc).append hnew, ?_, hdec⟩
      rw [List.length_append, List.length_append, List.length_singleton]
      omega

/-- What the create loop owes. -/
def LoopPost (c : Collection) (t : Nat) (input : CommitInput) (r : Except Err CreateOutcome)
    (w : World) : Prop :=
  match r with
  | .ok (.committed e) => e.docId = input.docId ∧ e.op = input.op ∧
      CreateOk c w t e.seq e input.insertGuard.isSome ∧
      (w.hist[e.seq]? = some e ∨ e.seq < w.floor)
  | .ok (.replayed _) => Genuine t w → AllDead t w
  | .error e => e.fateOpen = false → Genuine t w → AllDead t w

/-- The create of the loop is in order. -/
theorem createOk_mint {ms seq : Nat} {input : CommitInput} {window : List LogEntry}
    (himg : input.op ≠ .D → ∃ doc, input.body = some doc ∧
      doc.member (js "_id") = some (.str input.docId)) (hle : seq ≤ w.tail)
    (hborn : w.cur ≠ none) (hguard : GuardOk c t input w)
    (hwin : WindowOk t input w window seq) :
    CreateOk c w t seq (mintEntry t ms input seq) input.insertGuard.isSome where
  entry := mintEntry_ok himg
  session := rfl
  le_tail := hle
  manifest := hborn
  insert := by
    intro hsome
    obtain ⟨g, hg⟩ := Option.isSome_iff_exists.mp hsome
    obtain ⟨_, hop, hcoll, _⟩ := hguard g hg
    exact ⟨hop, hcoll, absent_below hg hguard hwin⟩

/-- **One iteration.**  Before the create, the earlier ones of the call are dead; they are again
    when the slot was lost to the entry committed there. -/
theorem wp_createStep {ms seq : Nat} {input : CommitInput} {lost : LogEntry → Task CreateOutcome}
    (hcreate : CreateOk c w t seq (mintEntry t ms input seq) input.insertGuard.isSome)
    (hdead : Genuine t w → AllDead t w)
    (hlost : ∀ occupant w', Evolves w w' → (Genuine t w' → AllDead t w') →
      ReadFact t (.occupant input.insertGuard.isSome) 0 seq (some occupant) w' →
      (protocol codec c).wp t (lost occupant) (fun r w'' =>
        Evolves w' w'' ∧ LoopPost c t input r w'') w') :
    (protocol codec c).wp t (createStep c t ms input seq lost) (fun r w' =>
      Evolves w w' ∧ LoopPost c t input r w') w := by
  unfold createStep
  refine wp_check (fun _ _ => ?_) fun e _ => ⟨.refl w, fun _ => hdead⟩
  refine Protocol.wp_attempt_bind (wp_create hcreate hdead) ?_
  rintro (createFailure | date) w₁ ⟨hev₁, hcreated⟩
  · dsimp only
    split
    next hrej =>
      -- a definitive rejection: the create never takes effect
      simp only [Bool.not_eq_true'] at hrej
      exact ⟨hev₁, fun _ => hcreated.rejected createFailure rfl hrej.1 hrej.2⟩
    next =>
      refine Protocol.wp_attempt_bind wp_readLogOccupant ?_
      rintro (e | occupant) w₂ ⟨hq₂, hread⟩
      · exact ⟨hev₁.trans hq₂.evolves, nofun⟩
      · have hev₂ := hev₁.trans hq₂.evolves
        have hread' := hread occupant rfl
        dsimp only
        split
        next hown =>
          -- the slot holds this very entry: an earlier send landed
          have heq : occupant = mintEntry t ms input seq := by
            simp only [tryAdoptOwnSessionLogEntry, decide_eq_true_eq] at hown
            exact hown.2.2
          subst heq
          exact ⟨hev₂, rfl, rfl, hev₂.createOk hcreate, hread'.committed⟩
        next hforeign =>
          have hne : occupant ≠ mintEntry t ms input seq := by
            rintro rfl
            simp [tryAdoptOwnSessionLogEntry] at hforeign
          refine Protocol.wp_mono
            (hlost occupant w₂ hev₂ (hcreated.lost hq₂.toCalm hread' hne) hread') ?_
          rintro r w₃ ⟨hev₃, hpost⟩
          exact ⟨hev₂.trans hev₃, hpost⟩
  · exact ⟨hev₁, rfl, rfl, hev₁.createOk hcreate, hcreated.acked date rfl⟩

/-- **Rule for the create loop**, by induction on the slots that may still be lost: before every
    create the window reaches up to the slot. -/
theorem wp_createLoop {ms : Nat} {input : CommitInput}
    (himg : input.op ≠ .D → ∃ doc, input.body = some doc ∧
      doc.member (js "_id") = some (.str input.docId)) :
    ∀ (probes : Nat) (window : List LogEntry) (seq : Nat) (w : World), seq ≤ w.tail →
      w.cur ≠ none → GuardOk c t input w → WindowOk t input w window seq →
      (Genuine t w → AllDead t w) →
      (protocol codec c).wp t (createLoop c t ms input probes window seq) (fun r w' =>
        Evolves w w' ∧ LoopPost c t input r w') w := by
  intro probes
  induction probes with
  | zero =>
    intro window seq w hle hborn hguard hwin hdead
    refine wp_createStep (createOk_mint himg hle hborn hguard hwin) hdead ?_
    intro occupant w₁ _ hdead₁ _
    exact ⟨.refl w₁, fun _ => hdead₁⟩
  | succ probes ih =>
    intro window seq w hle hborn hguard hwin hdead
    refine wp_createStep (createOk_mint himg hle hborn hguard hwin) hdead ?_
    intro occupant w₁ hev₁ hdead₁ hread
    have hdeadAfter : ∀ w₂, Quiet t w₁ w₂ → Genuine t w₂ → AllDead t w₂ := fun w₂ hq hg =>
      (hdead₁ (hq.evolves.genuine hg)).calm hq.toCalm
    refine Protocol.wp_seq (wp_nextSlot (hwin.keep hev₁) hread) ?_
      fun e w₂ h => ⟨h.1.evolves, fun _ => hdeadAfter w₂ h.1⟩
    rintro (replayed | ⟨next, window'⟩) w₂ ⟨hq₂, hnext⟩
    · exact ⟨hq₂.evolves, hdeadAfter w₂ hq₂⟩
    · obtain ⟨hle₂, hwin₂⟩ := hnext next window' rfl
      have hev₂ := hev₁.trans hq₂.evolves
      refine Protocol.wp_mono (ih window' next w₂ hle₂ (hev₂.born hborn) (hguard.keep hev₂) hwin₂
        (hdeadAfter w₂ hq₂)) ?_
      rintro r w₃ ⟨hev₃, hpost⟩
      exact ⟨hq₂.evolves.trans hev₃, hpost⟩

/-! ## After the create -/

/-- **The floor check.**  If it ran, the entry is in the committed sequence. -/
theorem wp_assertCommitAboveDeleteFloor {seq : Nat} {e : LogEntry} {docId : JsString}
    (hborn : w.cur ≠ none) (hland : w.hist[seq]? = some e ∨ seq < w.floor) :
    (protocol codec c).wp t (assertCommitAboveDeleteFloor c seq docId) (fun r w' => Calm t w w' ∧
      (r = .ok true → w'.hist[seq]? = some e ∧ ∃ json tail,
        Event.readCurrent t (some json) tail ∈ w'.trace ∧ certifiedDeleteFloor json ≤ seq) ∧
      ∀ err, r = .error err → err.fateOpen = true) w := by
  refine Protocol.wp_attempt_bind wp_readCurrentJson ?_
  rintro (err | v) w₁ ⟨hcalm, hread⟩
  · cases err with
    | abort => exact ⟨hcalm, nofun, fun err h => by cases h; rfl⟩
    | _ => exact ⟨hcalm, nofun, nofun⟩
  · have hr := hread v rfl
    cases v with
    | none => exact absurd rfl (hr.born hborn)
    | some json =>
      have hfloor := hr.floor_le json rfl
      have hcert := (hr.found json rfl).delete_le
      dsimp only
      split
      next hbelow =>
        refine ⟨hcalm, fun _ => ⟨?_, ?_⟩, nofun⟩
        · rcases hland with hh | hf
          · exact hcalm.evolves.hist_get hh
          · omega
        · obtain ⟨tail, _, _, _, hmem, _⟩ := hr.reads
          exact ⟨json, tail, hmem, by omega⟩
      next habove =>
        have hdel : ReqOk codec c w₁ t (.deleteLog seq) := by
          show seq < w₁.floor
          omega
        refine Protocol.wp_attempt_bind (wp_write hdel rfl) ?_
        rintro r w₂ ⟨hq₂, _⟩
        exact ⟨hcalm.trans hq₂.toCalm, nofun, fun err h => by cases h; rfl⟩

theorem wp_readPreImage {collection docId : JsString} : ∀ (budget seq : Nat) (w : World),
    (protocol codec c).wp t (readPreImage collection docId budget seq)
      (fun _ w' => Quiet t w w') w := by
  intro budget
  induction budget with
  | zero => intro seq w; exact Quiet.refl t w
  | succ budget ih =>
    intro seq w
    cases seq with
    | zero => exact Quiet.refl t w
    | succ seq =>
      have hgo : ∀ w₁, Quiet t w w₁ → (protocol codec c).wp t
          (readPreImage collection docId budget seq) (fun _ w' => Quiet t w w') w₁ :=
        fun w₁ hq => Protocol.wp_mono (ih seq w₁) fun _ _ hq' => hq.trans hq'
      refine Protocol.wp_seq (wp_getLog (Nat.zero_le w.tail)) ?_ fun e w₁ h => h.1
      rintro (_ | entry) w₁ ⟨hq, _⟩
      · exact hgo w₁ hq
      · dsimp only
        split
        · exact hgo w₁ hq
        · split
          · exact hq
          · split
            · exact hq
            · exact hgo w₁ hq

theorem wp_staleIndexKeys {cfg : WriterConfig} {input : CommitInput} {seq : Nat} :
    (protocol codec c).wp t (staleIndexKeys cfg input seq) (fun _ w' => Quiet t w w') w := by
  unfold staleIndexKeys
  split
  · exact Quiet.refl t w
  · refine Protocol.wp_seq (wp_readPreImage _ seq w) (fun preImage w₁ hq => ?_) fun e w₁ hq => hq
    exact wp_check (fun _ _ => wp_check (fun _ _ => hq) fun e _ => hq) fun e _ => hq
  · refine Protocol.wp_seq (wp_readPreImage _ seq w) (fun preImage w₁ hq => ?_) fun e w₁ hq => hq
    exact wp_ofExcept hq

/-- Sending throws nothing. -/
theorem noThrow_sendAll : ∀ rs : List Req, (Task.sendAll rs).NoThrow := by
  intro rs
  induction rs with
  | nil => trivial
  | cons r rs ih => exact fun id => ih.bind fun _ => trivial

/-- Cleaning up stale markers never fails the commit. -/
theorem noThrow_cleanup (cfg : WriterConfig) (input : CommitInput) (seq : Nat) :
    (cleanupStaleIndexKeysBestEffort cfg input seq).NoThrow := by
  unfold cleanupStaleIndexKeysBestEffort
  split
  · trivial
  · refine (Prog.NoThrow.attempt _).bind fun r => ?_
    cases r with
    | error e => trivial
    | ok staleKeys =>
      refine Prog.NoThrow.bind ?_ fun _ => trivial
      refine (noThrow_sendAll _).bind fun ids => Prog.NoThrow.bind ?_ fun _ => trivial
      intro order
      refine Prog.NoThrow.gather (fun id => ?_) _
      exact (Prog.NoThrow.attempt (Task.outcome id)).bind fun _ => trivial

/-- Cleanup never fails a commit. -/
theorem wp_cleanup {cfg : WriterConfig} {input : CommitInput} {seq : Nat} :
    (protocol codec c).wp t (cleanupStaleIndexKeysBestEffort cfg input seq)
      (fun r w' => Quiet t w w' ∧ ∃ n, r = .ok n) w := by
  refine Protocol.wp_noThrow ?_ (noThrow_cleanup cfg input seq)
  unfold cleanupStaleIndexKeysBestEffort
  split
  · exact Quiet.refl t w
  · refine Protocol.wp_attempt_bind wp_staleIndexKeys ?_
    rintro (e | staleKeys) w₁ hq₁
    · exact hq₁
    · refine Protocol.wp_seq (wp_writeAll ?_ ?_) (fun _ w₂ hq₂ => hq₁.trans hq₂)
        fun e w₂ hq₂ => hq₁.trans hq₂
      · intro id w₂
        exact Protocol.wp_attempt_bind (wp_await id) fun r w₃ hq₃ => hq₃
      · intro r hr
        obtain ⟨key, _, rfl⟩ := List.mem_map.mp hr
        exact ⟨trivial, rfl⟩

/-! ## The commit -/

/-- What a commit owes, and what a fresh entry is. -/
def CommitOwes (c : Collection) (t : Nat) (input : CommitInput) (r : Except Err CommitSuccess)
    (w : World) : Prop :=
  CommitPost t r w ∧ ∀ s, r = .ok s → s.replayed = false → s.entry.docId = input.docId ∧
    s.entry.op = input.op ∧ CreateOk c w t s.entry.seq s.entry input.insertGuard.isSome

/-- A commit that failed owes what its loop did. -/
theorem CommitOwes.of_error {input : CommitInput} {e : Err} (h : CommitPost t (.error e) w) :
    CommitOwes c t input (.error e) w := by
  refine ⟨h, fun s hs => ?_⟩
  cases hs

/-- One that was replayed owes nothing new. -/
theorem CommitOwes.of_replayed {input : CommitInput} {s : CommitSuccess}
    (hr : s.replayed = true) (h : Genuine t w → AllDead t w) :
    CommitOwes c t input (.ok s) w := by
  refine ⟨?_, fun s' hs' hr' => ?_⟩
  · show if s.replayed = true then _ else _
    rw [if_pos hr]
    exact h
  · cases hs'
    rw [hr] at hr'
    cases hr'

/-- **After its create** a commit keeps what it found. -/
theorem wp_afterCreate {cfg : WriterConfig} {input : CommitInput} {current : CurrentJson}
    {markers : Nat} {e : LogEntry} (hpost : LoopPost c t input (.ok (.committed e)) w) :
    (protocol codec c).wp t (afterCreate cfg c input current markers e) (fun r w' =>
      Evolves w w' ∧ CommitOwes c t input r w') w := by
  obtain ⟨hid, hop, hcreate, hland⟩ := hpost
  unfold afterCreate
  refine Protocol.wp_seq (wp_assertCommitAboveDeleteFloor hcreate.manifest hland) ?_ ?_
  · rintro checked w₁ ⟨hcalm₁, hchecked, _⟩
    refine Protocol.wp_seq wp_cleanup ?_ ?_
    · rintro stale w₂ ⟨hq₂, _⟩
      have hev := hcalm₁.evolves.trans hq₂.evolves
      refine ⟨hev, ?_, fun s hs _ => ?_⟩
      · intro hcheck
        have hcheck' : checked = true := hcheck
        subst hcheck'
        obtain ⟨hhist, json, tail, hmem, hle⟩ := hchecked rfl
        exact ⟨hq₂.evolves.hist_get hhist, hcreate.session, json, tail,
          hq₂.evolves.trace.subset hmem, hle⟩
      · cases hs
        exact ⟨hid, hop, hev.createOk hcreate⟩
    · rintro err w₂ ⟨_, n, hn⟩
      cases hn
  · rintro err w₁ ⟨hcalm₁, _, hopen⟩
    refine ⟨hcalm₁.evolves, .of_error fun hclosed => ?_⟩
    rw [hopen err rfl] at hclosed
    cases hclosed

/-- **Rule for `Writer.commit`.** -/
theorem wp_commit {cfg : WriterConfig} {input : CommitInput} (hguard : GuardOk c t input w)
    (hdead : AllDead t w) :
    (protocol codec c).wp t (commit cfg c t input) (fun r w' =>
      Evolves w w' ∧ CommitOwes c t input r w') w := by
  refine wp_check (fun _ hpre => ?_) fun e _ => ⟨.refl w, .of_error fun _ _ => hdead⟩
  have himg := precheck_image hpre
  -- an error before the first create leaves nothing alive
  have hstop : ∀ w', Calm t w w' → ∀ e : Err,
      Evolves w w' ∧ CommitOwes c t input (.error e) w' := fun w' hcalm e =>
    ⟨hcalm.evolves, .of_error fun _ _ => hdead.calm hcalm⟩
  refine Protocol.wp_seq wp_readOrProvision ?_ fun e w₁ h => hstop w₁ h.1 e
  rintro current w₁ ⟨hcalm₁, hm⟩
  refine Protocol.wp_seq wp_walkLog ?_ fun e w₂ hq => hstop w₂ (hcalm₁.trans hq.toCalm) e
  rintro _ w₂ hq₂
  have hcalm₂ := hcalm₁.trans hq₂.toCalm
  have hm₂ := hq₂.evolves.manifestOk (hm current rfl)
  refine Protocol.wp_seq (wp_findSlot hm₂ (hguard.keep hcalm₂.evolves)) ?_
    fun e w₃ h => hstop w₃ (hcalm₂.trans h.1.toCalm) e
  rintro (replayed | ⟨seq, window⟩) w₃ ⟨hq₃, hslot⟩
  · have hcalm₃ := hcalm₂.trans hq₃.toCalm
    exact ⟨hcalm₃.evolves, .of_replayed rfl fun _ => hdead.calm hcalm₃⟩
  · obtain ⟨hle, hwin⟩ := hslot seq window rfl
    have hcalm₃ := hcalm₂.trans hq₃.toCalm
    refine Protocol.wp_seq wp_now ?_ fun e w₄ hq => hstop w₄ (hcalm₃.trans hq.toCalm) e
    rintro ms w₄ hq₄
    refine Protocol.wp_seq wp_putMarkers ?_
      fun e w₅ hq => hstop w₅ ((hcalm₃.trans hq₄.toCalm).trans hq.toCalm) e
    rintro markers w₅ hq₅
    have hcalm₅ := hcalm₃.trans (hq₄.trans hq₅).toCalm
    have hev₅ := (hq₄.trans hq₅).evolves
    have htail := hev₅.tail
    refine Protocol.wp_seq (wp_createLoop himg logForwardProbeCap window seq w₅ (by omega)
      (hev₅.born (hq₃.evolves.born hm₂.born)) (hguard.keep hcalm₅.evolves) (hwin.keep hev₅)
      fun _ => hdead.calm hcalm₅) ?_ ?_
    · rintro (entry | entry) w₆ ⟨hev₆, hpost⟩
      · refine Protocol.wp_mono (wp_afterCreate hpost) ?_
        rintro r w₇ ⟨hev₇, howes⟩
        exact ⟨(hcalm₅.evolves.trans hev₆).trans hev₇, howes⟩
      · exact ⟨hcalm₅.evolves.trans hev₆, .of_replayed rfl hpost⟩
    · rintro e w₆ ⟨hev₆, hpost⟩
      exact ⟨hcalm₅.evolves.trans hev₆, .of_error hpost⟩

end Baerly
