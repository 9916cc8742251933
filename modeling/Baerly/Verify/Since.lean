import Baerly.Verify.Compactor

/-
  What a subscription learns: one manifest read per poll, one GET per slot it fetched.

  The rules only collect the facts (`PollOk`, `FeedOk`).  What they add up to, that nothing is
  skipped or repeated, is a consequence drawn from the finished run.
-/

namespace Baerly

open Async

variable {codec : Codec} {c : Collection} {t : Nat} {w w' : World}

/-! ## One poll -/

theorem PollOk.keep {cursor : Cursor} {p : Polled} {read : Nat} (h : PollOk codec c t w cursor p read)
    (hev : Evolves w w') : PollOk codec c t w' cursor p read := by
  unfold PollOk at h ⊢
  cases hhead : p.head with
  | none =>
    rw [hhead] at h
    exact h
  | some m =>
    rw [hhead] at h
    obtain ⟨hm, hgen, start, tail, hstart, htail, answers, hans, hevents⟩ := h
    exact ⟨hev.manifestOk hm, hgen, start, tail, hstart, htail.keep hev, answers,
      fun n hlo hhi => (hans n hlo hhi).keep hev, hevents⟩

theorem wp_probeLogTail {hint since : Nat} {current : CurrentJson} (hs : since ≤ w.tail)
    (hhint : hint ≤ w.tail) :
    (protocol codec c).wp t (probeLogTail c hint current) (fun r w' => Quiet t w w' ∧
      ∀ tail, r = .ok tail → tail ≤ w'.tail ∧ ReadFact t .feedTail since tail none w') w := by
  unfold probeLogTail
  refine wp_check (fun _ _ => ?_) fun e _ => ⟨.refl t w, nofun⟩
  refine Protocol.wp_seq (wp_probeTailFrom (readRule codec c t .feedTail since) hs) ?_
    fun e w₁ h => ⟨h.1, nofun⟩
  rintro ⟨tail, entries⟩ w₁ ⟨hq, hprobe⟩
  obtain ⟨htail, hans, hempty⟩ := hprobe tail entries rfl
  have hbound := answers_le_tail hans (Nat.le_trans hhint hq.evolves.tail)
  refine ⟨hq, fun x hx => ?_⟩
  cases hx
  exact ⟨by omega, hempty⟩

theorem wp_getLogEntry {seq since : Nat} {current : CurrentJson} (hs : since ≤ w.tail) :
    (protocol codec c).wp t (getLogEntry seq current) (fun r w' => Quiet t w w' ∧
      ∀ v, r = .ok v → ReadFact t .feed since seq v w') w := by
  unfold getLogEntry
  exact wp_check (fun _ _ => wp_getLog hs) fun e _ => ⟨.refl t w, nofun⟩

/-- The fetch loop: one answer per slot, and the events are the answers that were there. -/
theorem wp_fetchEvents {since : Nat} {current : CurrentJson} : ∀ (count seq : Nat) (w : World),
    since ≤ w.tail → (protocol codec c).wp t (fetchEvents current count seq) (fun r w' => Quiet t w w' ∧
      ∀ es, r = .ok es → ∃ answers : Nat → Option LogEntry,
        (∀ n, seq ≤ n → n < seq + count → ReadFact t .feed since n (answers n) w') ∧
        es = (List.range' seq count).filterMap answers) w := by
  intro count
  induction count with
  | zero =>
    intro seq w _
    refine ⟨.refl t w, fun es hes => ?_⟩
    cases hes
    exact ⟨fun _ => none, fun n hlo hhi => absurd hhi (by omega), rfl⟩
  | succ count ih =>
    intro seq w hs
    refine Protocol.wp_seq (wp_getLogEntry hs) ?_ fun e w₁ h => ⟨h.1, nofun⟩
    rintro got w₁ ⟨hq₁, hgot⟩
    refine Protocol.wp_seq (ih (seq + 1) w₁ (Nat.le_trans hs hq₁.evolves.tail)) ?_
      fun e w₂ h => ⟨hq₁.trans h.1, nofun⟩
    rintro rest w₂ ⟨hq₂, hrest⟩
    obtain ⟨answers, hans, hevents⟩ := hrest rest rfl
    -- the answers of the rest, and this slot's own
    have hfacts : ∀ n, seq ≤ n → n < seq + (count + 1) →
        ReadFact t .feed since n (if n = seq then got else answers n) w₂ := by
      intro n hlo hhi
      by_cases hn : n = seq
      · rw [if_pos hn, hn]
        exact (hgot got rfl).keep hq₂.evolves
      · rw [if_neg hn]
        exact hans n (by omega) (by omega)
    have hlist : (List.range' seq (count + 1)).filterMap (fun n => if n = seq then got else answers n)
        = got.toList ++ rest := by
      have hsame : (List.range' (seq + 1) count).filterMap
          (fun n => if n = seq then got else answers n) = rest := by
        rw [hevents]
        refine List.filterMap_congr fun n hn => ?_
        rw [List.mem_range'_1] at hn
        rw [if_neg (by omega)]
      rw [List.range'_succ, List.filterMap_cons, if_pos rfl, hsame]
      cases got <;> rfl
    cases got with
    | none =>
      refine ⟨hq₁.trans hq₂, fun es hes => ⟨_, hfacts, ?_⟩⟩
      cases hes
      exact hlist.symm
    | some entry =>
      refine ⟨hq₁.trans hq₂, fun es hes => ⟨_, hfacts, ?_⟩⟩
      cases hes
      exact hlist.symm

/-- **Rule for `pollOnce`**: it reads the manifest once. -/
theorem wp_pollOnce {cursor : Cursor} :
    (protocol codec c).wp t (pollOnce c cursor) (fun r w' => Calm t w w' ∧
      ∀ p, r = .ok p → ∃ read, w'.manifestReads t = w.manifestReads t ++ [(p.head, read)] ∧
        PollOk codec c t w' cursor p read) w := by
  unfold pollOnce
  refine wp_check (fun _ _ => ?_) fun e _ => ⟨.refl t w, nofun⟩
  refine Protocol.wp_seq wp_readCurrentJson ?_ fun e w₁ h => ⟨h.1, nofun⟩
  rintro (_ | json) w₁ ⟨hcalm₁, hread⟩
  · obtain ⟨read, hreads, _, _, _, hzero⟩ := (hread none rfl).reads
    refine ⟨hcalm₁, fun p hp => ?_⟩
    cases hp
    exact ⟨read, hreads, rfl, hzero rfl⟩
  · obtain ⟨read, hreads, _, hle, _, _⟩ := (hread _ rfl).reads
    have hm := (hread _ rfl).found json rfl
    have hstart : json.logSeqStart ≤ json.tailHint := hm.wf.start_le
    have hhint := hm.hint_le
    refine Protocol.wp_seq (wp_probeLogTail hle (by omega)) ?_
      fun e w₂ h => ⟨hcalm₁.trans h.1.toCalm, nofun⟩
    rintro tail w₂ ⟨hq₂, hprobe⟩
    obtain ⟨htail, hempty⟩ := hprobe tail rfl
    refine wp_check (fun start hstart => ?_) fun e _ => ⟨hcalm₁.trans hq₂.toCalm, nofun⟩
    refine Protocol.wp_seq (wp_fetchEvents _ start w₂ htail) ?_
      fun e w₃ h => ⟨hcalm₁.trans (hq₂.trans h.1).toCalm, nofun⟩
    rintro events w₃ ⟨hq₃, hevents⟩
    obtain ⟨answers, hans, hlist⟩ := hevents events rfl
    have hq := hq₂.trans hq₃
    refine ⟨hcalm₁.trans hq.toCalm, fun p hp => ?_⟩
    cases hp
    refine ⟨read, hq.reads.trans hreads, hq.evolves.manifestOk hm, rfl, start, tail, hstart,
      hempty.keep hq₃.evolves, answers, fun n hlo hhi => hans n hlo ?_, hlist⟩
    omega

/-! ## Long polls -/

/-- Polls from one cursor, with the manifest reads they made. -/
def PollsOk (codec : Codec) (c : Collection) (t : Nat) (w : World) (cursor : Cursor)
    (polls : List Polled) (reads : List (Option CurrentJson × Nat)) : Prop :=
  List.Forall₂ (fun p read => p.head = read.1 ∧ PollOk codec c t w cursor p read.2) polls reads

theorem PollsOk.keep {cursor : Cursor} {polls : List Polled}
    {reads : List (Option CurrentJson × Nat)} (h : PollsOk codec c t w cursor polls reads)
    (hev : Evolves w w') : PollsOk codec c t w' cursor polls reads :=
  List.Forall₂.imp (fun _ _ hp => ⟨hp.1, hp.2.keep hev⟩) h

theorem PollsOk.snoc {cursor : Cursor} {polls : List Polled} {p : Polled} {read : Nat}
    {reads : List (Option CurrentJson × Nat)} (h : PollsOk codec c t w cursor polls reads)
    (hp : PollOk codec c t w cursor p read) :
    PollsOk codec c t w cursor (polls ++ [p]) (reads ++ [(p.head, read)]) :=
  List.rel_append h (.cons ⟨rfl, hp⟩ .nil)

/-- What a long poll that started with the manifest reads `before` behind it knows. -/
def LongPollOk (codec : Codec) (c : Collection) (t : Nat) (cursor : Cursor)
    (before : List (Option CurrentJson × Nat)) (r : Except Err SinceResponse) (w : World) : Prop :=
  ∀ res, r = .ok res → ∃ own, w.manifestReads t = before ++ own ∧
    PollsOk codec c t w cursor res.polls own ∧ Resolves cursor res

/-- It resolves empty. -/
theorem LongPollOk.empty {cursor : Cursor} {before own : List (Option CurrentJson × Nat)}
    {polls : List Polled} (hreads : w.manifestReads t = before ++ own)
    (hpolls : PollsOk codec c t w cursor polls own) (hnil : ∀ p ∈ polls, p.events = []) :
    LongPollOk codec c t cursor before (.ok ⟨[], cursor, polls⟩) w := by
  intro res hres
  cases hres
  exact ⟨own, hreads, hpolls, Or.inl ⟨rfl, rfl, hnil⟩⟩

/-- It resolves with the events of its last poll. -/
theorem LongPollOk.delivered {cursor : Cursor} {before own : List (Option CurrentJson × Nat)}
    (polls : List Polled) {p : Polled} (hreads : w.manifestReads t = before ++ own)
    (hpolls : PollsOk codec c t w cursor (polls ++ [p]) own)
    (hnil : ∀ q ∈ polls, q.events = []) (hsome : p.events ≠ []) :
    LongPollOk codec c t cursor before
      (.ok ⟨p.events, nextCursor cursor p, polls ++ [p]⟩) w := by
  intro res hres
  cases hres
  exact ⟨own, hreads, hpolls, Or.inr ⟨polls, p, rfl, hnil, rfl, hsome, rfl⟩⟩

/-- The tick loop, by induction on the ticks left: every poll so far was empty. -/
theorem wp_tickLoop {cursor : Cursor} {deadline : Nat}
    {before : List (Option CurrentJson × Nat)} : ∀ (ticks : Nat) (polls : List Polled)
    (own : List (Option CurrentJson × Nat)) (w : World),
      w.manifestReads t = before ++ own → PollsOk codec c t w cursor polls own →
      (∀ p ∈ polls, p.events = []) →
      (protocol codec c).wp t (tickLoop c cursor deadline ticks polls) (fun r w' =>
        Calm t w w' ∧ LongPollOk codec c t cursor before r w') w := by
  intro ticks
  induction ticks with
  | zero =>
    intro polls own w hreads hpolls hnil
    exact ⟨.refl t w, .empty hreads hpolls hnil⟩
  | succ ticks ih =>
    intro polls own w hreads hpolls hnil
    refine Protocol.wp_seq wp_aborted ?_ fun e w₁ hq => ⟨hq.toCalm, nofun⟩
    intro aborted w₁ hq₁
    have hreads₁ : w₁.manifestReads t = before ++ own := hq₁.reads.trans hreads
    have hpolls₁ := hpolls.keep hq₁.evolves
    cases aborted with
    | true => exact ⟨hq₁.toCalm, .empty hreads₁ hpolls₁ hnil⟩
    | false =>
      refine Protocol.wp_seq wp_pollOnce ?_ fun e w₂ h => ⟨hq₁.toCalm.trans h.1, nofun⟩
      rintro polled w₂ ⟨hcalm₂, hpoll⟩
      obtain ⟨read, hreads₂, hok⟩ := hpoll polled rfl
      have hcalm := hq₁.toCalm.trans hcalm₂
      have hpolls₂ := (hpolls₁.keep hcalm₂.evolves).snoc hok
      rw [hreads₁, List.append_assoc] at hreads₂
      by_cases hsome : polled.events = []
      · -- an empty poll: wait, and poll again before the deadline
        have hnil₂ : ∀ p ∈ polls ++ [polled], p.events = [] := by
          intro p hp
          rcases List.mem_append.mp hp with hp | hp
          · exact hnil p hp
          · rw [List.mem_singleton.mp hp]
            exact hsome
        rw [if_neg (by simpa using hsome)]
        refine Protocol.wp_seq wp_now ?_ fun e w₃ hq => ⟨hcalm.trans hq.toCalm, nofun⟩
        intro now w₃ hq₃
        have hreads₃ := hq₃.reads.trans hreads₂
        have hpolls₃ := hpolls₂.keep hq₃.evolves
        split
        · exact ⟨hcalm.trans hq₃.toCalm, .empty hreads₃ hpolls₃ hnil₂⟩
        · refine Protocol.wp_mono (ih _ _ w₃ hreads₃ hpolls₃ hnil₂) ?_
          rintro r w₄ ⟨hcalm₄, hr⟩
          exact ⟨(hcalm.trans hq₃.toCalm).trans hcalm₄, hr⟩
      · rw [if_pos hsome]
        exact ⟨hcalm, .delivered polls hreads₂ hpolls₂ hnil hsome⟩

/-- **Rule for `longPollSince`.** -/
theorem wp_longPollSince {timeoutMs ticks : Nat} {cursor : Cursor} :
    (protocol codec c).wp t (longPollSince c timeoutMs ticks cursor) (fun r w' =>
      Calm t w w' ∧ LongPollOk codec c t cursor (w.manifestReads t) r w') w := by
  unfold longPollSince
  refine wp_check (fun _ _ => ?_) fun e _ => ⟨.refl t w, nofun⟩
  refine Protocol.wp_seq wp_pollOnce ?_ fun e w₁ h => ⟨h.1, nofun⟩
  rintro initial w₁ ⟨hcalm₁, hpoll⟩
  obtain ⟨read, hreads, hok⟩ := hpoll initial rfl
  have hpolls : PollsOk codec c t w₁ cursor [initial] [(initial.head, read)] :=
    .cons ⟨rfl, hok⟩ .nil
  by_cases hsome : initial.events = []
  · rw [if_neg (by simpa using hsome)]
    refine Protocol.wp_seq wp_now ?_ fun e w₂ hq => ⟨hcalm₁.trans hq.toCalm, nofun⟩
    intro start w₂ hq₂
    refine Protocol.wp_mono (wp_tickLoop ticks _ _ w₂ (hq₂.reads.trans hreads)
      (hpolls.keep hq₂.evolves) ?_) ?_
    · intro p hp
      rw [List.mem_singleton.mp hp]
      exact hsome
    · rintro r w₃ ⟨hcalm₃, hr⟩
      exact ⟨(hcalm₁.trans hq₂.toCalm).trans hcalm₃, hr⟩
  · rw [if_pos hsome]
    exact ⟨hcalm₁, .delivered [] hreads hpolls (by simp) hsome⟩

/-! ## Subscriptions -/

theorem FeedOk.keep (hev : Evolves w w') : ∀ (rs : List SinceResponse) (cursor : Cursor)
    (reads : List (Option CurrentJson × Nat)), FeedOk codec c t w cursor rs reads →
      FeedOk codec c t w' cursor rs reads := by
  intro rs
  induction rs with
  | nil => intro cursor reads h; exact h
  | cons res rest ih =>
    intro cursor reads h
    obtain ⟨own, others, heq, hpolls, hres, hrest⟩ := h
    exact ⟨own, others, heq, PollsOk.keep hpolls hev, hres, ih _ _ hrest⟩

/-- **Rule for a subscription**, by induction on the calls. -/
theorem wp_subscribe {timeoutMs ticks : Nat} : ∀ (calls : Nat) (cursor : Cursor) (w : World),
    (protocol codec c).wp t (subscribe c timeoutMs ticks calls cursor) (fun r w' =>
      Calm t w w' ∧ ∀ rs, r = .ok rs → ∃ reads, w'.manifestReads t = w.manifestReads t ++ reads ∧
        FeedOk codec c t w' cursor rs reads) w := by
  intro calls
  induction calls with
  | zero =>
    intro cursor w
    refine ⟨.refl t w, fun rs hrs => ?_⟩
    cases hrs
    exact ⟨[], (List.append_nil _).symm, rfl⟩
  | succ calls ih =>
    intro cursor w
    refine Protocol.wp_seq wp_longPollSince ?_ fun e w₁ h => ⟨h.1, nofun⟩
    rintro res w₁ ⟨hcalm₁, hlong⟩
    obtain ⟨own, hreads, hpolls, hres⟩ := hlong res rfl
    refine Protocol.wp_seq (ih res.next w₁) ?_ fun e w₂ h => ⟨hcalm₁.trans h.1, nofun⟩
    rintro rest w₂ ⟨hcalm₂, hrest⟩
    obtain ⟨others, hreads₂, hfeed⟩ := hrest rest rfl
    refine ⟨hcalm₁.trans hcalm₂, fun rs hrs => ?_⟩
    cases hrs
    refine ⟨own ++ others, ?_, own, others, rfl, PollsOk.keep hpolls hcalm₂.evolves, hres, hfeed⟩
    rw [hreads₂, hreads, List.append_assoc]

end Baerly
